/-
# Errors of a file tree

Why an operation on a file tree fails, worded as the operating system words it.
-/

namespace IdlCompiler.FileTree

/-- Why an operation on a file tree fails. -/
inductive Error where
  | notFound
  | alreadyExists
  | notADirectory
  | isADirectory
  | notEmpty
  | tooManyLinks
  | nameTooLong
  | invalidArgument
  /-- The path holds a character that no name may hold. -/
  | nulInPath
  /-- The content of a file is not text. -/
  | notText
  | permissionDenied
  /-- An error that only a disk has. -/
  | other (message : String)
deriving DecidableEq, Repr

/-- The wording of an error, with the number that the operating system gives it. -/
def Error.message : Error → String
  | notFound => "No such file or directory (os error 2)"
  | alreadyExists => "File exists (os error 17)"
  | notADirectory => "Not a directory (os error 20)"
  | isADirectory => "Is a directory (os error 21)"
  | notEmpty => "Directory not empty (os error 39)"
  | tooManyLinks => "Too many levels of symbolic links (os error 40)"
  | nameTooLong => "File name too long (os error 36)"
  | invalidArgument => "Invalid argument (os error 22)"
  | nulInPath => "file name contained an unexpected NUL byte"
  | notText => "stream did not contain valid UTF-8"
  | permissionDenied => "Permission denied (os error 13)"
  | other text => text

/-- An error that arises on a walk through a directory, and the path at which it does. -/
structure WalkError where
  path : String
  error : Error
deriving DecidableEq, Repr

/-- The wording of an error on a walk. -/
def WalkError.message (e : WalkError) : String :=
  s!"IO error for operation on {e.path}: {e.error.message}"

end IdlCompiler.FileTree
