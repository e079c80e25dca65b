/-
# JSON values and annotations in interface definitions

Defaults and the arguments of annotations are JSON values written with the tokens of the
language.  A comma may stand behind the last item of an array or an object.
-/
import IdlCompiler.Idl.Cursor

namespace IdlCompiler.Idl

open Parse

/-- Decodes a string literal that stands at a position. -/
def decodeString (literal : String) (position : Position) : Reading String :=
  match Json.readStringText literal with
  | .ok text => .ok text
  | .error failure => .error (.fault position (.invalidString failure))

/-- Decodes a number literal that stands at a position. -/
def decodeNumber (literal : String) (position : Position) : Reading Json :=
  match Json.read literal with
  | .ok v => .ok v
  | .error failure => .error (.fault position (.invalidNumber failure))

/-- Takes over the outcome of a computation that does not look at tokens. -/
def Parse.ofReading {α : Type} (r : Reading α) : Parse α := match r with
  | .ok a => pure a
  | .error e => throw e

/-- Reads a member of an object, whose value `value` reads. -/
def parseMember (value : Parse Json) : Parse (String × Json) := do
  let token ← current
  match token.kind with
  | .stringLiteral literal =>
    advance
    let key ← ofReading (decodeString literal token.position)
    expect .colon
    let v ← value
    return (key, v)
  | _ => unexpected "JSON object key"

/-- Reads a JSON value that nests at most `levels` deep. -/
def parseValueIn : (levels : Nat) → Parse Json
  | 0 => fail (.nestedTooDeep .values)
  | levels + 1 => nested .values do
    let token ← current
    match token.kind with
    | .stringLiteral literal =>
      advance
      let text ← ofReading (decodeString literal token.position)
      return .string text
    | .numberLiteral literal =>
      advance
      ofReading (decodeNumber literal token.position)
    | .word "true" =>
      advance
      return .bool true
    | .word "false" =>
      advance
      return .bool false
    | .word "null" =>
      advance
      return .null
    | .mark .openBracket =>
      advance
      let values ← items .closeBracket (parseValueIn levels)
      return .array values
    | .mark .openBrace =>
      advance
      let members ← items .closeBrace (parseMember (parseValueIn levels))
      return .object (Json.Members.insertAll [] members)
    | _ => missing "JSON value"

/-- Reads a JSON value. -/
def parseValue : Parse Json := do parseValueIn (maxNesting + 1 - (← get).depth)

/-! ## Annotations -/

/-- An annotation: a name with a JSON value, and its position. -/
structure Annotation where
  name : String
  value : Json
  position : Position
deriving Repr

/-- Reads an annotation.  The name of a property may not have a meaning of its own in a
canonical document. -/
def parseAnnotation : Parse Annotation := do
  let position := (← current).position
  advance
  let name ← expectWord "annotation name"
  if name ≠ "namespace" ∧ isReservedKey name then throw (.fault position (.reservedProperty name))
  expect .openParen
  let value ← parseValue
  expect .closeParen
  return { name, value, position }

/-- Reads the annotations before a declaration. -/
def parseAnnotations : Parse (List Annotation) :=
  withRounds (whileSeeing (.mark .atSign) parseAnnotation)

/-- What annotations say about a protocol or a named type: its namespace, if they give
one, and its properties.  The last of several values counts. -/
def applyTypeAnnotations (annotations : List Annotation) :
    Reading (Option String × Properties) :=
  annotations.foldlM (fun (space, properties) a =>
    if a.name = "namespace" then
      match a.value with
      | .string s => .ok (some s, properties)
      | found => .error (.fault a.position (.annotationNotText a.name found))
    else .ok (space, Json.Members.insert properties a.name a.value)) (none, [])

/-- What annotations say about a field, a parameter or a message: its properties. -/
def applyMemberAnnotations (annotations : List Annotation) : Reading Properties :=
  annotations.foldlM (fun properties a =>
    if a.name = "namespace" then .error (.fault a.position .misplacedNamespace)
    else .ok (Json.Members.insert properties a.name a.value)) []

end IdlCompiler.Idl
