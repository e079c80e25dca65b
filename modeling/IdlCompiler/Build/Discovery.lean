/-
# Discovery of sources

The sources of a build are the files below a directory that some include pattern matches
and no exclude pattern matches.  They are sorted by the path that leads to them.
-/
import IdlCompiler.Build.Error
import IdlCompiler.Work.Basic

namespace IdlCompiler.Build

/-- Which files below a directory are sources. -/
structure Selection where
  includes : List String := []
  excludes : List String := []
deriving DecidableEq, Repr

/-- The include patterns that count if none are given. -/
def defaultIncludes : List String :=
  ["**/*." ++ Stage.schemaExtension, "**/*." ++ Stage.definitionExtension]

/-- The include patterns that count. -/
def Selection.effectiveIncludes (s : Selection) : List String :=
  if s.includes.isEmpty then defaultIncludes else s.includes

/-- A source. -/
structure Candidate where
  /-- The path below the source directory. -/
  relative : String
  /-- The path of the source directory and what follows it. -/
  path : String
deriving DecidableEq, Repr

/-- The path of a file below a directory, by the names that lead to it. -/
def relativePath (names : List String) : String := "/".intercalate names

/-- Tells whether a path is selected.  Excludes win over includes. -/
def isSelected (includes excludes : List Glob.Pattern) (path : String) : Bool :=
  !Glob.anyMatch excludes path && Glob.anyMatch includes path

/-- The sources among the files below a directory. -/
def candidates (root : String) (includes excludes : List Glob.Pattern)
    (files : List (List String)) : List Candidate :=
  let selected := files.filter fun names => isSelected includes excludes (relativePath names)
  let found := selected.map fun names =>
    ({ relative := relativePath names, path := Path.joinAll root names } : Candidate)
  found.mergeSort fun a b => a.relative ≤ b.relative

/-- Finds the sources below a directory.  There are none if the directory is missing. -/
def discover (root : String) (selection : Selection) : Attempt BuildError (List Candidate) := do
  if !(← Work.isDirectory root) then return []
  let includes ← Attempt.ofResult ((Glob.readAll selection.effectiveIncludes).mapError .pattern)
  let excludes ← Attempt.ofResult ((Glob.readAll selection.excludes).mapError .pattern)
  let files ← Attempt.of .walk (Work.filesBelow root)
  return candidates root includes excludes files

end IdlCompiler.Build
