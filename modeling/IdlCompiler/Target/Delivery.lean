/-
# From files to generated files

Reading an interface definition from a file, and writing the code for the canonical
document in a file below an output directory.  A file that holds the code already is not
written again.
-/
import IdlCompiler.Target.Output
import IdlCompiler.Work.Basic

namespace IdlCompiler

/-- Reads the interface definition in a file. -/
def Protocol.ofIdlFile (path : String) : Attempt ReadError Protocol := do
  let text ← Attempt.of .io (Work.readText path)
  Attempt.ofResult (Protocol.ofIdl text)

/-- The code for the canonical document in a file. -/
def generateFromFile (path : String) : Attempt GenerationError String := do
  let text ← Attempt.of .io (Work.readText path)
  Attempt.ofResult (generateFromText text)

/-- What is generated for a canonical document: the directories and the file below the
output directory, and the code. -/
def deliverable (text : String) : Except GenerationError (List String × String) :=
  match Protocol.ofText text with
  | .error e => .error (.read e)
  | .ok p =>
    let r := Resolved.ofProtocol p
    match r.outputParts with
    | .error e => .error e
    | .ok parts => .ok (parts, r.code)

/-- Writes a text into a file unless the file holds it already. -/
def writeChanged (path text : String) : Work (Except FileTree.Error Unit) := do
  match ← Work.readText path with
  | .ok present => if present = text then return .ok () else Work.writeText path text
  | .error _ => Work.writeText path text

/-- Generates code for the canonical document in a file and writes it below a directory.
Gives the path of the file that holds the code. -/
def deliver (schemaFile output : String) : Attempt GenerationError String := do
  let text ← Attempt.of .io (Work.readText schemaFile)
  let (parts, code) ← Attempt.ofResult (deliverable text)
  let target := Path.joinAll output parts
  Attempt.of .io (Work.makeDirectories (Path.parent target))
  Attempt.of .io (writeChanged target code)
  return target

end IdlCompiler
