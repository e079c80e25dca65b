/-
# Batches

A batch of sources is compiled in order.  An interface definition is lowered into the
workspace first; then code is generated for the lowered schema, or for the source itself.
The first failure ends the batch.
-/
import IdlCompiler.Build.Discovery
import IdlCompiler.Target.Delivery

namespace IdlCompiler.Build

/-- The two steps that a batch drives. -/
structure Steps where
  /-- Makes a protocol of an interface definition. -/
  lower : String → Reading Protocol
  /-- Generates code for a schema file below an output directory. -/
  generate : (schemaFile output : String) → Attempt GenerationError Unit

/-- The steps of this library. -/
def Steps.standard : Steps where
  lower := Protocol.ofIdl
  generate schemaFile output := do
    let _ ← deliver schemaFile output

/-- A source that has been compiled. -/
structure CompiledFile where
  /-- The path below the source directory. -/
  relative : String
  stage : Stage
  /-- The path of the lowered schema, if the source was lowered. -/
  lowered : Option String
deriving DecidableEq, Repr

/-- The result of a batch. -/
inductive Outcome where
  | success (compiled : List CompiledFile)
  /-- A file failed after some others had been compiled. -/
  | failure (compiled : List CompiledFile) (failure : Failure)
deriving Repr

namespace Outcome

/-- The files that have been compiled. -/
def compiled : Outcome → List CompiledFile
  | success files | failure files _ => files

/-- Tells whether all files have been compiled. -/
def isSuccess : Outcome → Bool
  | success _ => true
  | failure .. => false

/-- The files if all have been compiled, or else the failure. -/
def toResult : Outcome → Except Failure (List CompiledFile)
  | success files => .ok files
  | failure _ f => .error f

/-- The result of a batch with one more file in front, which has been compiled. -/
def prepend (file : CompiledFile) : Outcome → Outcome
  | success files => success (file :: files)
  | failure files f => failure (file :: files) f

end Outcome

/-- Lowers a source into the workspace and gives the path of the schema. -/
def lowerSource (steps : Steps) (workspace : String) (file : Candidate) :
    Attempt FailureCause String := do
  let text ← Attempt.of .io (Work.readText file.path)
  let protocol ← Attempt.ofResult ((steps.lower text).mapError .lowering)
  let target := Path.join workspace (loweredPath file.relative)
  Attempt.of .io (Work.makeDirectories (Path.parent target))
  Attempt.of .io (Work.writeText target protocol.canonicalText)
  return target

/-- The schema file that code is generated for: the lowered schema, or the source. -/
def schemaFile (steps : Steps) (workspace : String) (file : Candidate) :
    Attempt FailureCause (Option String) :=
  match Stage.ofPath file.relative with
  | .interfaceDefinition => some <$> lowerSource steps workspace file
  | .canonicalSchema => return none

/-- Compiles a source. -/
def compileSource (steps : Steps) (workspace output : String) (file : Candidate) :
    Attempt FailureCause CompiledFile := do
  let lowered ← schemaFile steps workspace file
  ExceptT.adapt FailureCause.generation (steps.generate (lowered.getD file.path) output)
  return { relative := file.relative, stage := Stage.ofPath file.relative, lowered }

/-- Compiles sources in order, up to the first that fails. -/
def compile (steps : Steps) (workspace output : String) : List Candidate → Work Outcome
  | [] => return .success []
  | file :: rest => do
    match ← (compileSource steps workspace output file).outcome with
    | .error cause =>
      return .failure [] ⟨Stage.ofPath file.relative, file.relative, output, cause⟩
    | .ok done => return (← compile steps workspace output rest).prepend done

end IdlCompiler.Build
