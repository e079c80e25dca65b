/-
# The program

Runs the command line on the disk.  All that is decided is decided by `Command.program`;
this module answers its requests.

The files below a source directory are listed on the standard input, one path a line, as
`find` prints them.  A directory is removed together with everything in it.
-/
import IdlCompiler.Command.Basic

namespace IdlCompiler.Disk

/-- The error of a file tree that stands for an error of the disk. -/
def errorOf : IO.Error → FileTree.Error
  | .noFileOrDirectory .. => .notFound
  | .alreadyExists .. => .alreadyExists
  | .permissionDenied .. => .permissionDenied
  | .inappropriateType _ code _ => if code = 21 then .isADirectory else .notADirectory
  | e => .other (toString e)

/-- Does something on the disk and catches its error. -/
def attempt {α : Type} (action : IO α) : IO (Except FileTree.Error α) := do
  try return .ok (← action)
  catch e => return .error (errorOf e)

/-- Tells whether a path leads to a directory. -/
def isDirectory (path : String) : IO Bool := do
  return (← attempt (IO.FS.realPath (Path.join path "."))).toOption.isSome

/-- Tells whether a path leads to a file. -/
def isFile (path : String) : IO Bool := do
  if ← isDirectory path then return false
  return (← attempt (IO.FS.realPath path)).toOption.isSome

/-- The lines of the standard input. -/
partial def readLines (input : IO.FS.Stream) : IO (List String) := do
  let line ← input.getLine
  if line.isEmpty then return []
  return String.ofList (Text.dropLineEnd line.toList) :: (← readLines input)

/-- The names that lead from a directory to a path below it. -/
def namesBelow? (directory path : String) : Option (List String) :=
  let start := (Path.join directory "x").toList.dropLast
  if start.isPrefixOf path.toList then
    some (Path.names (String.ofList (path.toList.drop start.length)))
  else none

/-- The files below a directory that the standard input lists. -/
def filesBelow (directory : String) : IO (List (List String)) := do
  let listed ← readLines (← IO.getStdin)
  let files ← listed.filterM isFile
  return files.filterMap (namesBelow? directory)

/-- The text of a file. -/
def readText (path : String) : IO (Except FileTree.Error String) := do
  match ← attempt (IO.FS.readBinFile path) with
  | .error e => return .error e
  | .ok content =>
    match String.fromUTF8? content with
    | some text => return .ok text
    | none => return .error .notText

/-- Makes a directory with a name of its own, for which so many names are tried. -/
def makeFresh (parent : String) : (rounds : Nat) → IO (Except FileTree.Error String)
  | 0 => return .error .alreadyExists
  | rounds + 1 => do
    let path := Path.join parent (FileTree.freshName (← IO.rand 0 999999))
    match ← attempt (IO.FS.createDir path) with
    | .ok () => return .ok path
    | .error .alreadyExists => makeFresh parent rounds
    | .error e => return .error e

/-- Answers a request from the disk. -/
def answer : (r : Request) → IO r.Answer
  | .isDirectory path => isDirectory path
  | .filesBelow path => return (← attempt (filesBelow path)).mapError (⟨path, ·⟩)
  | .contents path => do
    return [([], if ← isDirectory path then .ok true else .error .notFound)]
  | .readText path => readText path
  | .writeText path text => attempt (IO.FS.writeFile path text)
  | .makeDirectories path => attempt (IO.FS.createDirAll path)
  | .makeFresh parent => makeFresh parent 1000
  | .removeFile path => attempt (IO.FS.removeFile path)
  | .removeDirectory path => attempt (IO.FS.removeDirAll path)
  | .watch _ | .register _ => return ()

end IdlCompiler.Disk

open IdlCompiler in
/-- Runs the program on its arguments. -/
def main (arguments : List String) : IO UInt32 := do
  let temporary := (← IO.getEnv "TMPDIR").getD "/tmp"
  let work := Command.program (Command.workspaceRootIn temporary) arguments
  let exit ← work.interpret Disk.answer
  (← IO.getStdout).putStr exit.output
  (← IO.getStderr).putStr exit.errors
  return exit.code.toUInt32
