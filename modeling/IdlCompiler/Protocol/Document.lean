/-
# Reading a canonical document

The reader of documents takes a JSON value apart into a protocol.  Keys without a meaning
at their place become custom properties.  It checks the structure only; whether the
protocol is well formed is another question.
-/
import IdlCompiler.Protocol.Canonical
import IdlCompiler.ReadError

namespace IdlCompiler

/-- The result of reading something, or why it cannot be read. -/
abbrev Reading (α : Type) := Except ReadError α

namespace Document

open Json (Members)

/-- The members that are custom properties at a place with these keys. -/
def customProperties (members : Members) (keys : List String) : Properties :=
  members.filter fun m => !keys.contains m.1

/-- An attribute that must be a text. -/
def requiredText (members : Members) (key : String) (part : DocumentPart) : Reading String :=
  match Members.get? members key with
  | some (.string s) => .ok s
  | some other => .error (.invalidAttribute part key other.toText)
  | none => .error (.missingAttribute part key)

/-- An attribute that may be a text; null is the same as none. -/
def optionalText (members : Members) (key : String) (part : DocumentPart) :
    Reading (Option String) :=
  match Members.get? members key with
  | some (.string s) => .ok (some s)
  | some .null | none => .ok none
  | some other => .error (.invalidAttribute part key other.toText)

/-- An attribute that must be an array. -/
def requiredItems (members : Members) (key : String) (part : DocumentPart) :
    Reading (List Json) :=
  match Members.get? members key with
  | none => .error (.missingAttribute part key)
  | some (.array items) => .ok items
  | some _ => .error (.invalidAttribute part key "non-array")

/-- The items of an array that must be texts. -/
def readTexts (key : String) (part : DocumentPart) (items : List Json) :
    Reading (List String) :=
  items.mapM fun item => match item with
    | .string s => .ok s
    | other => .error (.invalidAttribute part key other.toText)

/-- The schema that a `type` attribute names when it is not a container. -/
def plainKind (kind : String) : Reading Schema :=
  if ["record", "error", "enum", "fixed"].contains kind then
    .error (.structureFault (.inlineDefinition kind))
  else match Primitive.ofName? kind with
    | some p => .ok (.primitive p)
    | none => .error (.invalidAttribute .schema "type" kind)

mutual

/-- Reads a schema. -/
def readSchema : Json → Reading Schema
  | .string name => .ok (Schema.ofWord name)
  | .array branches => do
    let branches ← readSchemas branches
    return .union branches
  | .object members => do
    let kind ← requiredText members "type" .schema
    if kind = "array" then
      match ← readSchemaAt? members "items" with
      | some items => return .array items
      | none => throw (.missingAttribute .arraySchema "items")
    else if kind = "map" then
      match ← readSchemaAt? members "values" with
      | some values => return .map values
      | none => throw (.missingAttribute .mapSchema "values")
    else plainKind kind
  | other => .error (.structureFault (.invalidSchema other))
termination_by structural v => v

/-- Reads the schemas of the branches of a union. -/
def readSchemas : List Json → Reading (List Schema)
  | [] => .ok []
  | v :: vs => do
    let schema ← readSchema v
    let schemas ← readSchemas vs
    return schema :: schemas
termination_by structural vs => vs

/-- Reads the schema under a key, if the key is there. -/
def readSchemaAt? : List (String × Json) → String → Reading (Option Schema)
  | [], _ => .ok none
  | (k, v) :: rest, key =>
    if k = key then some <$> readSchema v else readSchemaAt? rest key
termination_by structural ms => ms

end

/-- Reads a field or a parameter. -/
def readField (v : Json) : Reading Field :=
  match v with
  | .object members => do
    let name ← requiredText members "name" .field
    let part := DocumentPart.namedField name
    match Members.get? members "type" with
    | none => throw (.missingAttribute part "type")
    | some type =>
      let schema ← readSchema type
      let doc ← optionalText members "doc" part
      return {
        name, schema, doc
        default? := Members.get? members "default"
        properties := customProperties members fieldKeys }
  | other => .error (.structureFault (.fieldNotObject other))

/-- Reads what a named type consists of. -/
def readBody (members : Members) (kind : String) (part : DocumentPart) : Reading TypeBody :=
  if kind = "record" ∨ kind = "error" then do
    let items ← requiredItems members "fields" part
    let fields ← items.mapM readField
    return .record (kind = "error") fields
  else if kind = "enum" then do
    let items ← requiredItems members "symbols" part
    let symbols ← readTexts "symbols" part items
    return .symbols symbols
  else if kind = "fixed" then
    match Members.get? members "size" with
    | none => throw (.missingAttribute part "size")
    | some v =>
      match v.toUInt64? with
      | some size => return .fixed size
      | none => throw (.invalidAttribute part "size" v.toText)
  else throw (.invalidAttribute .typeDefinition "type" kind)

/-- Reads a named type. -/
def readType (v : Json) : Reading NamedType :=
  match v with
  | .object members => do
    let kind ← requiredText members "type" .typeDefinition
    let name ← requiredText members "name" .typeDefinition
    let part := DocumentPart.type kind name
    let space ← optionalText members "namespace" part
    let doc ← optionalText members "doc" part
    let body ← readBody members kind part
    return { name, space, doc, properties := customProperties members typeKeys, body }
  | other => .error (.structureFault (.typeNotObject other))

/-- Reads the errors that a message may throw. -/
def readErrors (members : Members) (part : DocumentPart) : Reading (List String) :=
  match Members.get? members "errors" with
  | none => .ok []
  | some (.array items) => readTexts "errors" part items
  | some other => .error (.invalidAttribute part "errors" other.toText)

/-- Reads the flag of a message without answer. -/
def readOneWay (members : Members) (part : DocumentPart) : Reading Bool :=
  match Members.get? members "one-way" with
  | none => .ok false
  | some (.bool b) => .ok b
  | some other => .error (.invalidAttribute part "one-way" other.toText)

/-- Reads a message. -/
def readMessage (name : String) (v : Json) : Reading Message :=
  let part := DocumentPart.message name
  match v with
  | .object members => do
    let items ← requiredItems members "request" part
    let request ← items.mapM readField
    match Members.get? members "response" with
    | none => throw (.missingAttribute part "response")
    | some v =>
      let response ← readSchema v
      let errors ← readErrors members part
      let oneWay ← readOneWay members part
      let doc ← optionalText members "doc" part
      return {
        name, doc, request, response, errors, oneWay
        properties := customProperties members messageKeys }
  | _ => .error (.structureFault (.messageNotObject name))

/-- The types of a document, none if it does not say. -/
def readTypes (members : Members) : Reading (List NamedType) :=
  match Members.get? members "types" with
  | none => .ok []
  | some (.array items) => items.mapM readType
  | some other => .error (.invalidAttribute .protocol "types" other.toText)

/-- The messages of a document, none if it does not say. -/
def readMessages (members : Members) : Reading (List Message) :=
  match Members.get? members "messages" with
  | none => .ok []
  | some (.object entries) => entries.mapM fun (name, v) => readMessage name v
  | some other => .error (.invalidAttribute .protocol "messages" other.toText)

end Document

/-- Reads a JSON value as the document of a protocol. -/
def Protocol.ofJson (v : Json) : Reading Protocol :=
  match v with
  | .object members => do
    let name ← Document.requiredText members "protocol" .protocol
    let space ← Document.optionalText members "namespace" .protocol
    let doc ← Document.optionalText members "doc" .protocol
    let types ← Document.readTypes members
    let messages ← Document.readMessages members
    let head : Protocol :=
      { name, space, doc, properties := Document.customProperties members protocolKeys }
    return { types.foldl Protocol.addType head with messages }
  | _ => .error (.structureFault .documentNotObject)

end IdlCompiler
