/-
# Faults in interface definitions

Why an interface definition cannot be read, apart from an end that comes too early.
-/
import IdlCompiler.Idl.Token
import IdlCompiler.Json.Printer
import IdlCompiler.Json.Reader

namespace IdlCompiler.Idl

/-- What may nest. -/
inductive Nesting where
  | types
  | values
deriving DecidableEq, Repr

/-- How messages call what nests. -/
def Nesting.text : Nesting → String
  | types => "type"
  | values => "JSON value"

/-- How deep types and JSON values may nest. -/
def maxNesting : Nat := 128

/-- A fault at a position of an interface definition. -/
inductive Fault where
  | unexpectedCharacter (c : Char)
  | unterminatedComment
  | unexpectedToken (expected : String) (found : TokenKind)
  | nestedTooDeep (nesting : Nesting)
  | misplacedVoid
  | reservedProperty (name : String)
  | misplacedNamespace
  | annotationNotText (name : String) (found : Json)
  | invalidNumber (failure : Json.Failure)
  | invalidString (failure : Json.Failure)
  | invalidSize (text : String)
  /-- A fault that something else than this language found. -/
  | other (message : String)
deriving Repr

/-- The wording of a fault. -/
def Fault.message : Fault → String
  | unexpectedCharacter c => "unexpected character '" ++ c.toString ++ "'"
  | unterminatedComment => "unterminated block comment"
  | unexpectedToken expected found => "expected " ++ expected ++ ", found " ++ found.shown
  | nestedTooDeep nesting => nesting.text ++ s!" nested deeper than {maxNesting} levels"
  | misplacedVoid => "'void' is only allowed as a message response"
  | reservedProperty name => "@" ++ name ++ " is a reserved property name"
  | misplacedNamespace => "@namespace is only allowed on protocols and named types"
  | annotationNotText name found =>
    "@" ++ name ++ " expects a string, found " ++ found.toText
  | invalidNumber failure => failure.message
  | invalidString failure => "invalid string: " ++ failure.message
  | invalidSize text => "invalid fixed size " ++ text
  | other message => message

end IdlCompiler.Idl
