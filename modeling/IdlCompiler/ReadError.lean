/-
# Errors of reading a protocol

Why a protocol cannot be read, from an interface definition or from its canonical
document: the text is malformed, the document has the wrong structure, the protocol is not
well formed, or the file cannot be read.
-/
import IdlCompiler.FileTree.Error
import IdlCompiler.Idl.Fault
import IdlCompiler.Protocol.Flaw

namespace IdlCompiler

/-- A part of a canonical document that an error is about. -/
inductive DocumentPart where
  | protocol
  | typeDefinition
  | type (kind name : String)
  | field
  | namedField (name : String)
  | message (name : String)
  | schema
  | arraySchema
  | mapSchema
deriving DecidableEq, Repr

/-- How messages call a part of a document. -/
def DocumentPart.text : DocumentPart → String
  | protocol => "protocol"
  | typeDefinition => "type definition"
  | type kind name => s!"{kind} '{name}'"
  | field => "field"
  | namedField name => s!"field '{name}'"
  | message name => s!"message '{name}'"
  | schema => "schema"
  | arraySchema => "array schema"
  | mapSchema => "map schema"

/-- A value that does not have the structure its place asks for. -/
inductive StructureFault where
  | documentNotObject
  | typeNotObject (found : Json)
  | fieldNotObject (found : Json)
  | messageNotObject (name : String)
  | inlineDefinition (kind : String)
  | invalidSchema (found : Json)
deriving Repr

/-- The wording of a structure fault. -/
def StructureFault.text : StructureFault → String
  | documentNotObject => "protocol document must be a JSON object"
  | typeNotObject found => "type definition must be an object: " ++ found.toText
  | fieldNotObject found => "field must be an object: " ++ found.toText
  | messageNotObject name => (DocumentPart.message name).text ++ " must be an object"
  | inlineDefinition kind =>
    s!"inline {kind} definitions are not supported; declare it in 'types'"
  | invalidSchema found => "invalid schema: " ++ found.toText

/-- Why a protocol cannot be read. -/
inductive ReadError where
  /-- The document is not JSON. -/
  | json (failure : Json.Failure)
  /-- The interface definition has a fault. -/
  | fault (position : Idl.Position) (fault : Idl.Fault)
  /-- The interface definition ends where something is expected. -/
  | unexpectedEnd (position : Idl.Position) (expected : String)
  /-- An attribute that must be there is not. -/
  | missingAttribute (part : DocumentPart) (key : String)
  /-- An attribute has a value that it cannot have. -/
  | invalidAttribute (part : DocumentPart) (key value : String)
  /-- A value does not have the structure its place asks for. -/
  | structureFault (fault : StructureFault)
  /-- The protocol is not well formed. -/
  | flaw (flaw : Flaw)
  /-- The file cannot be read. -/
  | io (error : FileTree.Error)
deriving Repr

namespace ReadError

/-- The wording of an error. -/
def message : ReadError → String
  | json failure => "JSON parsing error: " ++ failure.message
  | fault position cause =>
    s!"syntax error at {position.line}:{position.column}: " ++ cause.message
  | unexpectedEnd position expected =>
    s!"unexpected end of input at {position.line}:{position.column}: expected " ++ expected
  | missingAttribute part key =>
    s!"missing required attribute '{key}' on {part.text}"
  | invalidAttribute part key value =>
    s!"invalid value '{value}' for attribute '{key}' on {part.text}"
  | structureFault cause => "invalid schema structure: " ++ cause.text
  | flaw cause => "invalid protocol: " ++ cause.message
  | io error => "IO error: " ++ error.message

/-- The line and the column of an error in a text. -/
def position? : ReadError → Option (Nat × Nat)
  | json failure => some (failure.line, failure.column)
  | fault position _ => some (position.line, position.column)
  | unexpectedEnd position _ => some (position.line, position.column)
  | _ => none

/-- The wordings of an error and of the errors that caused it, outermost first. -/
def chain (e : ReadError) : List String :=
  match e with
  | json failure => [e.message, failure.message]
  | flaw cause => [e.message, cause.message]
  | io error => [e.message, error.message]
  | _ => [e.message]

end ReadError

end IdlCompiler
