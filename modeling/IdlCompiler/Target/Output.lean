/-
# Where generated code goes

The module of a protocol lies below the output directory in a directory for each segment
of the namespace.  A segment or a module name that is no identifier has no such place.
-/
import IdlCompiler.Idl.Declaration
import IdlCompiler.Target.Source

namespace IdlCompiler

/-- Why no code is generated. -/
inductive GenerationError where
  /-- The protocol cannot be read. -/
  | read (error : ReadError)
  /-- A file cannot be read or written. -/
  | io (error : FileTree.Error)
  /-- A segment of the namespace is no name of a directory. -/
  | noDirectory (space protocol : String)
  /-- The module name is no name of a file. -/
  | noFileName (protocol : String)
  /-- An error that something else than this library found. -/
  | other (message : String)
deriving Repr

namespace GenerationError

/-- The wording of an error. -/
def message : GenerationError → String
  | read error => "schema parse error: " ++ error.message
  | io error => "IO error: " ++ error.message
  | noDirectory space protocol =>
    s!"generation error: namespace '{space}' of protocol '{protocol}' does not map to a directory"
  | noFileName protocol => s!"generation error: protocol '{protocol}' does not map to a file name"
  | other message => "generation error: " ++ message

/-- The wordings of an error and of the errors that caused it, outermost first. -/
def chain (e : GenerationError) : List String :=
  match e with
  | read error => e.message :: error.chain
  | io error => [e.message, error.message]
  | _ => [e.message]

end GenerationError

namespace Resolved

/-- The directories of the module of a protocol and its file, below the output directory. -/
def outputParts (r : Resolved) : Except GenerationError (List String) :=
  let directories := (r.space.map Name.segments).getD []
  if !directories.all Name.isIdentifier then .error (.noDirectory (r.space.getD "") r.name)
  else if !Name.isIdentifier r.moduleName then .error (.noFileName r.name)
  else .ok (directories ++ [r.moduleName ++ ".rs"])

end Resolved

/-- The code for the protocol of a canonical document. -/
def generateFromText (text : String) : Except GenerationError String :=
  match Protocol.ofText text with
  | .error e => .error (.read e)
  | .ok p => .ok (Resolved.ofProtocol p).code

end IdlCompiler
