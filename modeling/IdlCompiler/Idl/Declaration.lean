/-
# Declarations

The grammar of the interface definition language, read one declaration at a time: types of
fields, records and errors, enums, blocks of fixed size, messages, and the protocol around
them.  `Protocol.ofIdl` reads a whole text and checks that the protocol is well formed.
-/
import IdlCompiler.Idl.Lexer
import IdlCompiler.Idl.Value
import IdlCompiler.Protocol.Validation

namespace IdlCompiler

namespace Idl

open Parse

/-! ## Types -/

/-- Reads a type that nests at most `levels` deep. -/
def parseTypeIn : (levels : Nat) → Parse Schema
  | 0 => fail (.nestedTooDeep .types)
  | levels + 1 => nested .types do
    match (← current).kind with
    | .word "array" =>
      advance
      expect .openAngle
      let items ← parseTypeIn levels
      expect .closeAngle
      return .array items
    | .word "map" =>
      advance
      expect .openAngle
      let values ← parseTypeIn levels
      expect .closeAngle
      return .map values
    | .word "union" =>
      advance
      expect .openBrace
      let branches ← withRounds (betweenCommas (parseTypeIn levels))
      expect .closeBrace
      return .union branches
    | .word "void" => fail .misplacedVoid
    | .word word =>
      advance
      return Schema.ofWord word
    | _ => missing "type"

/-- Reads a type. -/
def parseType : Parse Schema := do parseTypeIn (maxNesting + 1 - (← get).depth)

/-! ## Fields -/

/-- Reads a default value, if one is there. -/
def parseDefault : Parse (Option Json) := do
  if ← eat (.mark .equals) then some <$> parseValue else return none

/-- Reads a name with its default in a declaration of fields of one type. -/
def parseVariable (doc : Option String) (properties : Properties) (schema : Schema) :
    Parse Field := do
  let own := (← current).doc
  let name ← expectWord "field name"
  let default? ← parseDefault
  return { name, schema, default?, doc := own.or doc, properties }

/-- Reads a declaration of one or more fields of one type. -/
def parseFields : Parse (List Field) := do
  let doc := (← current).doc
  let annotations ← parseAnnotations
  let properties ← ofReading (applyMemberAnnotations annotations)
  let schema ← parseType
  let fields ← withRounds (betweenCommas (parseVariable doc properties schema))
  expect .semicolon
  return fields

/-- Reads a parameter of a message. -/
def parseParameter : Parse Field := do
  let doc := (← current).doc
  let annotations ← parseAnnotations
  let schema ← parseType
  let name ← expectWord "parameter name"
  let properties ← ofReading (applyMemberAnnotations annotations)
  let default? ← parseDefault
  return { name, schema, default?, doc, properties }

/-! ## Declarations -/

/-- A declaration inside a protocol. -/
inductive Declaration where
  | type (type : NamedType)
  | message (message : Message)
deriving Repr

/-- Reads a record or an error after its keyword. -/
def parseRecord (doc : Option String) (annotations : List Annotation) (isError : Bool) :
    Parse NamedType := do
  let name ← expectWord (if isError then "error name" else "record name")
  let (space, properties) ← ofReading (applyTypeAnnotations annotations)
  expect .openBrace
  let fields ← withRounds (untilSeeing (.mark .closeBrace) parseFields)
  expect .closeBrace
  return { name, space, doc, properties, body := .record isError fields.flatten }

/-- Reads an enum after its keyword. -/
def parseEnum (doc : Option String) (annotations : List Annotation) : Parse NamedType := do
  let name ← expectWord "enum name"
  expect .openBrace
  let symbols ← items .closeBrace (expectWord "enum symbol")
  let (space, properties) ← ofReading (applyTypeAnnotations annotations)
  return { name, space, doc, properties, body := .symbols symbols }

/-- The size that a number literal gives, if it is digits only and fits a word. -/
def sizeOf? (literal : String) : Option UInt64 :=
  let cs := literal.toList
  let value := cs.foldl (fun n c => n * 10 + Json.digitValue c) 0
  if cs.all Char.isDigit && !cs.isEmpty && value ≤ Json.maxWord then some value.toUInt64
  else none

/-- Takes the size of a block. -/
def parseSize : Parse UInt64 := do
  match (← current).kind with
  | .numberLiteral literal =>
    match sizeOf? literal with
    | some size =>
      advance
      return size
    | none => fail (.invalidSize literal)
  | _ => missing "fixed size"

/-- Reads a block of fixed size after its keyword. -/
def parseFixed (doc : Option String) (annotations : List Annotation) : Parse NamedType := do
  let name ← expectWord "fixed name"
  expect .openParen
  let size ← parseSize
  expect .closeParen
  expect .semicolon
  let (space, properties) ← ofReading (applyTypeAnnotations annotations)
  return { name, space, doc, properties, body := .fixed size }

/-- Reads the schema of the answer of a message. -/
def parseResponse : Parse Schema := do
  if ← eat (.word "void") then return Schema.null else parseType

/-- Reads the errors that a message throws, if it throws any. -/
def parseThrows : Parse (List String) := do
  if ← eat (.word "throws") then withRounds (betweenCommas (expectWord "error type"))
  else return []

/-- Reads a message, apart from what its annotations say. -/
def parseMessage : Parse Message := do
  let response ← parseResponse
  let name ← expectWord "message name"
  expect .openParen
  let request ← items .closeParen parseParameter
  let errors ← parseThrows
  let oneWay ← eat (.word "oneway")
  expect .semicolon
  return { name, request, response, errors, oneWay }

/-- Reads a declaration.  A word that starts no declaration of a type starts a message. -/
def parseDeclaration : Parse Declaration := do
  let doc := (← current).doc
  let annotations ← parseAnnotations
  match (← current).kind with
  | .word "record" =>
    advance
    .type <$> parseRecord doc annotations false
  | .word "error" =>
    advance
    .type <$> parseRecord doc annotations true
  | .word "enum" =>
    advance
    .type <$> parseEnum doc annotations
  | .word "fixed" =>
    advance
    .type <$> parseFixed doc annotations
  | .word _ =>
    let message ← parseMessage
    let properties ← ofReading (applyMemberAnnotations annotations)
    return .message { message with doc, properties }
  | _ => missing "declaration"

/-- Adds a declaration to a protocol. -/
def Declaration.addTo (p : Protocol) : Declaration → Protocol
  | .type t => p.addType t
  | .message m => p.addMessage m

/-- Reads a protocol up to the end of the text. -/
def parseUnit : Parse Protocol := do
  let doc := (← current).doc
  let annotations ← parseAnnotations
  expectKeyword "protocol"
  let name ← expectWord "protocol name"
  let (space, properties) ← ofReading (applyTypeAnnotations annotations)
  expect .openBrace
  let declarations ← withRounds (untilSeeing (.mark .closeBrace) parseDeclaration)
  expect .closeBrace
  unless ← check .endOfInput do unexpected "end of input after protocol"
  let head : Protocol := { name, space, doc, properties }
  return declarations.foldl Declaration.addTo head

/-- Reads a list of tokens as a protocol. -/
def parseTokens (tokens : List Token) : Reading Protocol :=
  match parseUnit (Cursor.ofTokens tokens) with
  | .ok p _ => .ok p
  | .error e _ => .error e

end Idl

namespace Protocol

/-- A protocol that is read and well formed. -/
def checked (p : Protocol) : Reading Protocol :=
  match p.validate with
  | .ok () => .ok p
  | .error flaw => .error (.flaw flaw)

/-- Reads an interface definition. -/
def ofIdl (text : String) : Reading Protocol := do
  let tokens ← Idl.tokenize text
  let p ← Idl.parseTokens tokens
  p.checked

/-- Reads a text as a canonical document, without a check that the protocol is well
formed. -/
def ofUncheckedText (text : String) : Reading Protocol :=
  match Json.read text with
  | .error failure => .error (.json failure)
  | .ok v => ofJson v

/-- Reads a text as a canonical document. -/
def ofText (text : String) : Reading Protocol := do
  let p ← ofUncheckedText text
  p.checked

end Protocol

end IdlCompiler
