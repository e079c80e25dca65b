/-
# Work

A piece of work is a finite tree of requests: it is done, or it asks for something and
goes on with the answer.  What it does depends on nothing but the answers, so that the same
work can be run on a file tree and on a disk, and two pieces of work can be run in turns.

Main statements: `run_bind` and `requests_bind`, one piece of work after another asks what
the first asks and then what the second asks.
-/
import IdlCompiler.Work.Request

namespace IdlCompiler

/-- A piece of work that ends with a value. -/
inductive Work (α : Type) where
  | done (result : α)
  | ask (request : Request) (next : request.Answer → Work α)

/-- What answers requests, for surroundings with states of type `σ`. -/
abbrev Server (σ : Type) := (r : Request) → σ → r.Answer × σ

namespace Work

variable {α β σ : Type}

/-- One piece of work and then another that depends on its result. -/
def andThen : Work α → (α → Work β) → Work β
  | done a, f => f a
  | ask r next, f => ask r fun answer => andThen (next answer) f

instance : Monad Work where
  pure := done
  bind := andThen

/-- The result of a piece of work and the state of its surroundings at the end. -/
def run (server : Server σ) : Work α → σ → α × σ
  | done a, s => (a, s)
  | ask r next, s =>
    let reply := server r s
    run server (next reply.1) reply.2

/-- The requests of a piece of work in order. -/
def requests (server : Server σ) : Work α → σ → List Request
  | done _, _ => []
  | ask r next, s =>
    let reply := server r s
    r :: requests server (next reply.1) reply.2

/-- Runs a piece of work in a monad. -/
def interpret {m : Type → Type} [Monad m] (answer : (r : Request) → m r.Answer) :
    Work α → m α
  | done a => pure a
  | ask r next => do
    let reply ← answer r
    interpret answer (next reply)

/-! ## Single requests -/

/-- The work of a single request. -/
def request (r : Request) : Work r.Answer := ask r done

/-- Asks whether a path leads to a directory. -/
def isDirectory (path : String) : Work Bool := request (.isDirectory path)

/-- Asks for the files below a directory. -/
def filesBelow (path : String) : Work (Except FileTree.WalkError (List (List String))) :=
  request (.filesBelow path)

/-- Asks for everything that a path leads to. -/
def contents (path : String) : Work (List (List String × Except FileTree.Error Bool)) :=
  request (.contents path)

/-- Asks for the text of a file. -/
def readText (path : String) : Work (Except FileTree.Error String) := request (.readText path)

/-- Writes a file. -/
def writeText (path text : String) : Work (Except FileTree.Error Unit) :=
  request (.writeText path text)

/-- Makes a directory and those above it. -/
def makeDirectories (path : String) : Work (Except FileTree.Error Unit) :=
  request (.makeDirectories path)

/-- Makes a directory with a name of its own. -/
def makeFresh (parent : String) : Work (Except FileTree.Error String) :=
  request (.makeFresh parent)

/-- Removes a directory or anything else. -/
def remove (isDirectory : Bool) (path : String) : Work (Except FileTree.Error Unit) :=
  if isDirectory then request (.removeDirectory path) else request (.removeFile path)

/-- Tells the build system what the work depends on. -/
def watch (directory : String) : Work Unit := request (.watch directory)

/-- Tells the build system where sources are. -/
def register (directory : String) : Work Unit := request (.register directory)

/-! ## Laws -/

@[simp] theorem pure_eq_done (a : α) : (pure a : Work α) = done a := rfl

@[simp] theorem done_bind (a : α) (f : α → Work β) : done a >>= f = f a := rfl

@[simp] theorem ask_bind (r : Request) (next : r.Answer → Work α) (f : α → Work β) :
    ask r next >>= f = ask r fun answer => next answer >>= f := rfl

theorem bind_done (w : Work α) : w >>= done = w := by
  induction w with
  | done a => rfl
  | ask r next ih => exact congrArg (ask r) (funext ih)

theorem bind_assoc {γ : Type} (w : Work α) (f : α → Work β) (g : β → Work γ) :
    w >>= f >>= g = w >>= fun a => f a >>= g := by
  induction w with
  | done a => rfl
  | ask r next ih => exact congrArg (ask r) (funext ih)

instance : LawfulMonad Work :=
  LawfulMonad.mk' Work bind_done (fun _ _ => rfl) bind_assoc

@[simp] theorem run_done (server : Server σ) (a : α) (s : σ) :
    (done a).run server s = (a, s) := rfl

@[simp] theorem run_ask (server : Server σ) (r : Request) (next : r.Answer → Work α) (s : σ) :
    (ask r next).run server s = (next (server r s).1).run server (server r s).2 := rfl

theorem run_bind (server : Server σ) (w : Work α) (f : α → Work β) (s : σ) :
    (w >>= f).run server s = (f (w.run server s).1).run server (w.run server s).2 := by
  induction w generalizing s with
  | done a => rfl
  | ask r next ih => exact ih _ _

theorem requests_bind (server : Server σ) (w : Work α) (f : α → Work β) (s : σ) :
    (w >>= f).requests server s
      = w.requests server s ++ (f (w.run server s).1).requests server (w.run server s).2 := by
  induction w generalizing s with
  | done a => rfl
  | ask r next ih => exact congrArg (r :: ·) (ih _ _)

end Work

/-- A piece of work that may fail. -/
abbrev Attempt (ε α : Type) := ExceptT ε Work α

namespace Attempt

variable {δ ε α : Type}

/-- Work whose failure is reported as another error. -/
def of (report : δ → ε) (w : Work (Except δ α)) : Attempt ε α :=
  ExceptT.mk do
    match ← w with
    | .ok a => return .ok a
    | .error e => return .error (report e)

/-- An attempt that asks nothing. -/
def ofResult (result : Except ε α) : Attempt ε α := ExceptT.mk (pure result)

/-- The outcome of an attempt. -/
def outcome (attempt : Attempt ε α) : Work (Except ε α) := ExceptT.run attempt

end Attempt

end IdlCompiler
