/-
# Runs

A run finds the sources below a directory, compiles them inside a workspace, and tells the
build system which directory it depends on and which one it fills.
-/
import IdlCompiler.Build.Batch
import IdlCompiler.Build.Workspace

namespace IdlCompiler.Build

/-- The source directory of a project, below the project. -/
def defaultSource : String := "src/schema"

/-- The output directory of a project, below the project. -/
def defaultOutput : String := "target/generated-sources/ironproto"

/-- What a run compiles, and where. -/
structure Plan where
  source : String
  output : String
  selection : Selection := {}
  /-- The directory that workspaces are made in. -/
  workspaceRoot : String
  steps : Steps := .standard

namespace Plan

/-- The plan for a project with the usual directories. -/
def ofProject (project workspaceRoot : String) : Plan where
  source := Path.join project defaultSource
  output := Path.join project defaultOutput
  workspaceRoot := workspaceRoot

/-- The plan for a build script, by the variables of its environment. -/
def ofEnvironment (valueOf? : String → Option String) (workspaceRoot : String) :
    Except BuildError Plan :=
  match valueOf? "CARGO_MANIFEST_DIR", valueOf? "OUT_DIR" with
  | none, _ => .error (.unset "CARGO_MANIFEST_DIR")
  | _, none => .error (.unset "OUT_DIR")
  | some manifest, some out => .ok {
      source := Path.join manifest defaultSource
      output := Path.join out "ironproto"
      workspaceRoot }

end Plan

/-- What a run has done. -/
structure Report where
  /-- How many sources there are. -/
  discovered : Nat := 0
  compiled : List CompiledFile := []
  /-- Why the workspace is still there, if it could not be removed. -/
  cleanup : Option CleanupError := none
deriving Repr

/-- Tells whether there was nothing to do. -/
def Report.isEmpty (r : Report) : Bool := r.discovered = 0

/-- Compiles sources inside a workspace and registers the output directory if all of them
compile. -/
def compileAll (plan : Plan) (files : List Candidate) : Attempt BuildError Report := do
  let (outcome, cleanup) ← withWorkspace plan.workspaceRoot fun workspace =>
    compile plan.steps workspace plan.output files
  match outcome with
  | .success compiled =>
    Work.register plan.output
    return { discovered := files.length, compiled, cleanup }
  | .failure _ failure => throw (.ofFailure failure)

/-- Runs a plan.  If the source directory is missing there is nothing to do. -/
def run (plan : Plan) : Attempt BuildError Report := do
  if !(← Work.isDirectory plan.source) then return {}
  let files ← discover plan.source plan.selection
  Work.watch plan.source
  compileAll plan files

/-! ## Build systems -/

/-- The variable that a build script sets to the output directory. -/
def generatedVariable : String := "IRONPROTO_GENERATED_DIR"

/-- The line that tells a build system by which it learns of a request. -/
def directive? : Request → Option String
  | .watch directory => some s!"cargo:rerun-if-changed={directory}"
  | .register directory => some s!"cargo:rustc-env={generatedVariable}={directory}"
  | _ => none

end IdlCompiler.Build
