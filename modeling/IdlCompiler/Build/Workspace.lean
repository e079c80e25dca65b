/-
# Workspaces

Every run has a directory of its own for the schemas that it makes.  The directory is fresh
when the run starts, and it is removed with everything in it when the run ends.
-/
import IdlCompiler.Build.Error
import IdlCompiler.Work.Basic

namespace IdlCompiler.Build

/-- Removes entries below a path one after the other, up to the first that stays or that
cannot be looked into. -/
def removeEntries (path : String) :
    List (List String × Except FileTree.Error Bool) → Attempt CleanupError Unit
  | [] => return ()
  | (names, .ok isDirectory) :: rest => do
    let entry := Path.joinAll path names
    Attempt.of (.unremoved entry) (Work.remove isDirectory entry)
    removeEntries path rest
  | (names, .error e) :: _ => throw (.unlisted ⟨Path.joinAll path names, e⟩)

/-- Removes what a path leads to and everything below it, the insides of directories
first.  Links are removed and not followed. -/
def removeTree (path : String) : Attempt CleanupError Unit := do
  let entries ← Work.contents path
  removeEntries path entries

/-- Makes the directory of a run below `parent`, and `parent` itself if it is missing. -/
def makeWorkspace (parent : String) : Attempt BuildError String := do
  Attempt.of (.workspace parent) (Work.makeDirectories parent)
  Attempt.of (.workspace parent) (Work.makeFresh parent)

/-- The error that a cleanup ends with, if it ends with one. -/
def cleanup (workspace : String) : Work (Option CleanupError) := do
  match ← (removeTree workspace).outcome with
  | .ok () => return none
  | .error e => return some e

/-- Works inside a fresh workspace, which is removed afterwards whatever the result is.  A
failure of the removal stands beside the result and does not replace it. -/
def withWorkspace {α : Type} (parent : String) (body : String → Work α) :
    Attempt BuildError (α × Option CleanupError) := do
  let workspace ← makeWorkspace parent
  let result ← body workspace
  let failure ← cleanup workspace
  return (result, failure)

end IdlCompiler.Build
