/-
# Walks through a file tree

A walk starts at a path and comes upon everything below it.  It follows no link, apart from
one at its start.  What it comes upon has a path of its own, the path of the start joined
with the names that lead on, and is looked for under that path.  Main statement:
`isReached_append`, the directories on the way to an entry are reached before it.
-/
import IdlCompiler.FileTree.Basic

namespace IdlCompiler.FileTree

/-- Tells whether names lead from a location through directories only, whatever stands at
their end. -/
def isReached (t : FileTree) : Location → List String → Bool
  | _, [] => true
  | l, name :: rest => t.isDirectoryAt l && isReached t (l ++ [name]) rest

/-- Compares names one after the other; names come before those that go on behind them. -/
def namesLe : List String → List String → Bool
  | [], _ => true
  | _ :: _, [] => false
  | a :: as, b :: bs => a < b || (a = b && namesLe as bs)

/-- The entries below a location that are reached through directories only, with the names
that lead to them, in the order of these names. -/
def below (t : FileTree) (l : Location) : List (List String × Entry) :=
  let found := t.entries.filterMap fun (m, entry) =>
    if l.isPrefixOf m && m.length ≠ l.length && t.isReached l (m.drop l.length) then
      some (m.drop l.length, entry)
    else none
  found.mergeSort fun a b => namesLe a.1 b.1

/-- Tells whether an entry is a directory, and fails for a directory that the path does not
lead to. -/
def lookInto (t : FileTree) (path : String) (entry : Entry) : Except Error Bool :=
  if entry.isDirectory then (t.find path).map fun _ => true else .ok false

/-- What a walk from a path, which leads to a location, comes upon below that location.  It
does not look into directories whose paths are too long. -/
def walkBelow (t : FileTree) (path : String) (l : Location) : List (List String × Entry) :=
  (t.below l).filter fun (names, _) => isShort (Path.joinAll path names.dropLast)

/-- Tells whether an entry that a walk comes upon is a file or a link that leads to one.
Fails for a directory that cannot be looked into. -/
def isWalkedFile (t : FileTree) (path : String) (entry : Entry) : Except WalkError Bool := do
  let _ ← (t.lookInto path entry).mapError (⟨path, ·⟩)
  match entry with
  | .file .. => return true
  | .directory => return false
  | .link _ => return t.isFile path

/-- The files below a directory, links to files among them, by the names that lead to
them.  Links to directories are not followed. -/
def filesBelow (t : FileTree) (path : String) : Except WalkError (List (List String)) := do
  let l ← (t.locate .target path).mapError (⟨path, ·⟩)
  let files ← (t.walkBelow path l).filterM fun (names, entry) =>
    t.isWalkedFile (Path.joinAll path names) entry
  return files.map Prod.fst

/-- What can be removed under a path that leads to a link, which stands at a location.  The
link comes first and is not followed, but a walk looks into the directory that it leads to.
What is in there is not found under the path any more once the link is removed. -/
def contentsOfLink (t : FileTree) (path : String) (l : Location) :
    List (List String × Except Error Bool) :=
  match t.find path, t.locate .target path with
  | .ok _, .ok target =>
    let later := t.erase l
    let inside := (later.below target).filter fun entry => entry.1.length = 1
    let seen := inside.map fun (names, entry) =>
      (names, later.lookInto (Path.joinAll path names) entry)
    ([], .ok false) :: seen.reverse
  | .error e, _ | _, .error e => [([], .error e)]

/-- What a path leads to and everything below it in the order in which it can be removed,
by the names that lead to it.  What is in a directory comes before the directory.  The flag
tells directories from all else; an error stands for what cannot be looked into. -/
def contents (t : FileTree) (path : String) : List (List String × Except Error Bool) :=
  match t.locate .entry path with
  | .error e => [([], .error e)]
  | .ok l => match t.entryAt? l with
    | none => [([], .error .notFound)]
    | some (.link _) => t.contentsOfLink path l
    | some entry =>
      let inside := (t.walkBelow path l).map fun (names, entry) =>
        (names, t.lookInto (Path.joinAll path names) entry)
      inside.reverse ++ [([], .ok entry.isDirectory)]

/-! ## Small laws -/

theorem isReached_append (t : FileTree) (l : Location) (names rest : List String) :
    t.isReached l (names ++ rest) = (t.isReached l names && t.isReached (l ++ names) rest) := by
  induction names generalizing l with
  | nil => simp [isReached]
  | cons name names ih => simp [isReached, ih, Bool.and_assoc]

end IdlCompiler.FileTree
