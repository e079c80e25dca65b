/-
# Requests

What a piece of work may ask of its surroundings: to look at files, to change them, and to
tell the build system what it should know.  Every request has its own type of answer.
-/
import IdlCompiler.FileTree.Walk

namespace IdlCompiler

/-- A request. -/
inductive Request where
  /-- Whether a path leads to a directory. -/
  | isDirectory (path : String)
  /-- The files below a directory, by the names that lead to them. -/
  | filesBelow (path : String)
  /-- What a path leads to and everything below it in the order in which it can be removed,
  by the names that lead there; the flag tells directories from all else, and an error
  stands for what cannot be looked into. -/
  | contents (path : String)
  | readText (path : String)
  | writeText (path text : String)
  /-- Make a directory and those above it that are missing. -/
  | makeDirectories (path : String)
  /-- Make a directory with a name of its own, and tell its path. -/
  | makeFresh (parent : String)
  | removeFile (path : String)
  | removeDirectory (path : String)
  /-- Tell the build system that the work depends on a directory. -/
  | watch (directory : String)
  /-- Tell the build system that a directory holds sources. -/
  | register (directory : String)
deriving DecidableEq, Repr

namespace Request

/-- The type of the answers to a request. -/
@[reducible] def Answer : Request → Type
  | isDirectory _ => Bool
  | filesBelow _ => Except FileTree.WalkError (List (List String))
  | contents _ => List (List String × Except FileTree.Error Bool)
  | readText _ | makeFresh _ => Except FileTree.Error String
  | writeText _ _ | makeDirectories _ | removeFile _ | removeDirectory _ =>
    Except FileTree.Error Unit
  | watch _ | register _ => Unit

end Request

namespace FileTree

/-- The answer to a request that changes a tree, and the tree afterwards.  A request that
fails changes nothing. -/
def changed (t : FileTree) : Except Error FileTree → Except Error Unit × FileTree
  | .ok t => (.ok (), t)
  | .error e => (.error e, t)

/-- The answer of a tree to a request, and the tree afterwards. -/
def serve (r : Request) (t : FileTree) : r.Answer × FileTree :=
  match r with
  | .isDirectory path => (t.isDirectory path, t)
  | .filesBelow path => (t.filesBelow path, t)
  | .contents path => (t.contents path, t)
  | .readText path => (t.readText path, t)
  | .writeText path text => t.changed (t.writeFile path text.toUTF8)
  | .makeDirectories path => t.makeDirectories path
  | .makeFresh parent =>
    match t.makeFresh parent with
    | .ok (path, t) => (.ok path, t)
    | .error e => (.error e, t)
  | .removeFile path => t.changed (t.removeFile path)
  | .removeDirectory path => t.changed (t.removeDirectory path)
  | .watch _ | .register _ => ((), t)

end FileTree

end IdlCompiler
