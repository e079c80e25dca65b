/-
# The canonical document of a protocol

Every protocol has a document in JSON with its parts in a fixed order.  Custom properties
stand among the attributes; a property whose key has a meaning somewhere in the document
is left out, so that it cannot be taken for an attribute.
-/
import IdlCompiler.Json.Printer
import IdlCompiler.Protocol.Basic

namespace IdlCompiler

/-- The keys with a meaning on a protocol. -/
def protocolKeys : List String := ["protocol", "namespace", "doc", "types", "messages"]

/-- The keys with a meaning on a named type. -/
def typeKeys : List String := ["type", "name", "namespace", "doc", "fields", "symbols", "size"]

/-- The keys with a meaning on a field or a parameter. -/
def fieldKeys : List String := ["name", "type", "doc", "default"]

/-- The keys with a meaning on a message. -/
def messageKeys : List String := ["doc", "request", "response", "errors", "one-way"]

/-- Tells whether a key has a meaning somewhere in a document. -/
def isReservedKey (key : String) : Bool :=
  protocolKeys.contains key || typeKeys.contains key || fieldKeys.contains key
    || messageKeys.contains key

namespace Canonical

/-- An attribute that is a text, if there is one. -/
def text? (key : String) (value : Option String) : Json.Members :=
  match value with
  | none => []
  | some text => [(key, .string text)]

/-- The properties that may stand in a document. -/
def custom (properties : Properties) : Json.Members :=
  properties.filter fun m => !isReservedKey m.1

/-- A list of texts. -/
def texts (values : List String) : Json := .array (values.map .string)

/-- The document of a field or a parameter. -/
def ofField (f : Field) : Json :=
  .object <| [("name", .string f.name), ("type", f.schema.toJson)]
    ++ text? "doc" f.doc
    ++ (match f.default? with
      | none => []
      | some v => [("default", v)])
    ++ custom f.properties

/-- The attribute that tells what a named type consists of. -/
def ofBody : TypeBody → String × Json
  | .record _ fields => ("fields", .array (fields.map ofField))
  | .symbols symbols => ("symbols", texts symbols)
  | .fixed size => ("size", .number (.natural size))

/-- The document of a named type. -/
def ofType (t : NamedType) : Json :=
  .object <| [("type", .string t.kindName), ("name", .string t.name)]
    ++ text? "namespace" t.space ++ text? "doc" t.doc ++ custom t.properties
    ++ [ofBody t.body]

/-- The document of a message.  The errors are left out if there are none, and the flag of
a message without answer if it is not set. -/
def ofMessage (m : Message) : Json :=
  .object <| text? "doc" m.doc ++ custom m.properties
    ++ [("request", .array (m.request.map ofField)), ("response", m.response.toJson)]
    ++ (if m.errors.isEmpty then [] else [("errors", texts m.errors)])
    ++ (if m.oneWay then [("one-way", .bool true)] else [])

/-- The documents of messages under their names.  The last of several messages with one
name counts, at the place of the first. -/
def ofMessages (messages : List Message) : Json.Members :=
  Json.Members.insertAll [] (messages.map fun m => (m.name, ofMessage m))

end Canonical

namespace Protocol

/-- The canonical document of a protocol. -/
def toJson (p : Protocol) : Json :=
  .object <| [("protocol", .string p.name)]
    ++ Canonical.text? "namespace" p.space ++ Canonical.text? "doc" p.doc
    ++ Canonical.custom p.properties
    ++ [("types", .array (p.types.map Canonical.ofType)),
      ("messages", .object (Canonical.ofMessages p.messages))]

/-- The text of the canonical document, with a line feed at its end. -/
def canonicalText (p : Protocol) : String := p.toJson.toPrettyText ++ "\n"

end Protocol

end IdlCompiler
