/-
# Errors of a build

Why a build fails.  A failure of a file says at which stage the file entered the build,
which file it is, where the output was to go, and what the cause is.
-/
import IdlCompiler.Build.Stage
import IdlCompiler.Glob.Set
import IdlCompiler.Target.Output

namespace IdlCompiler.Build

/-- Why a file does not compile. -/
inductive FailureCause where
  /-- The interface definition cannot be lowered. -/
  | lowering (error : ReadError)
  /-- The source cannot be read, or the lowered schema cannot be written. -/
  | io (error : FileTree.Error)
  /-- The code cannot be generated or written. -/
  | generation (error : GenerationError)
deriving Repr

/-- The wordings of a cause and of the errors that caused it. -/
def FailureCause.chain : FailureCause → List String
  | lowering error => error.chain
  | io error => [error.message]
  | generation error => error.chain

/-- The failure of a file. -/
structure Failure where
  /-- The stage at which the file entered the build. -/
  stage : Stage
  /-- The path of the file below the source directory. -/
  filename : String
  /-- The output directory. -/
  output : String
  cause : FailureCause
deriving Repr

/-- The wording of a failure. -/
def Failure.message (f : Failure) : String :=
  let action := match f.cause with
    | .lowering _ => "error parsing interface definition"
    | _ => "error compiling protocol file"
  s!"{action} {f.filename} to {f.output} ({f.stage.name} stage)"

/-- Why a directory cannot be removed with everything in it. -/
inductive CleanupError where
  /-- What is to be removed cannot be found out. -/
  | unlisted (error : FileTree.WalkError)
  /-- An entry cannot be removed. -/
  | unremoved (path : String) (error : FileTree.Error)
deriving DecidableEq, Repr

namespace CleanupError

/-- The path that cannot be removed. -/
def path : CleanupError → String
  | unlisted ⟨path, _⟩ | unremoved path _ => path

/-- The wording of an error. -/
def message : CleanupError → String
  | unlisted error => s!"failed to remove {error.path}: {error.message}"
  | unremoved path error => s!"failed to remove {path}: {error.message}"

end CleanupError

/-- Why a build fails. -/
inductive BuildError where
  /-- The patterns are no set of patterns. -/
  | pattern (error : Glob.SetError)
  /-- The source directory cannot be walked through. -/
  | walk (error : FileTree.WalkError)
  /-- An interface definition does not compile. -/
  | lowering (failure : Failure)
  /-- A canonical schema does not compile. -/
  | generation (failure : Failure)
  /-- No directory for the run can be made. -/
  | workspace (parent : String) (error : FileTree.Error)
  /-- A variable of the environment has no value. -/
  | unset (name : String)
deriving Repr

namespace BuildError

/-- The error for the failure of a file, by the stage of the file. -/
def ofFailure (failure : Failure) : BuildError :=
  match failure.stage with
  | .interfaceDefinition => lowering failure
  | .canonicalSchema => generation failure

/-- The wording of an error. -/
def message : BuildError → String
  | pattern error => s!"invalid glob pattern '{error.subject}': {error.message}"
  | walk error => s!"failed to walk source directory: {error.message}"
  | lowering failure | generation failure => failure.message
  | workspace parent error => s!"failed to create workspace under {parent}: {error.message}"
  | unset name => s!"configuration error: {name} is not set"

/-- The wordings of an error and of the errors that caused it, outermost first. -/
def chain (e : BuildError) : List String :=
  match e with
  | pattern error => [e.message, error.message]
  | walk error => [e.message, error.message, error.error.message]
  | lowering failure | generation failure => e.message :: failure.cause.chain
  | workspace _ error => [e.message, error.message]
  | unset _ => [e.message]

end BuildError

end IdlCompiler.Build
