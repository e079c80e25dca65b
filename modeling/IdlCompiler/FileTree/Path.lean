/-
# Paths

A path is a text whose names stand between slashes.  Empty names and the name `.` do not
count, so that many texts lead to one place; paths are nevertheless kept as their user
wrote them.  Main statement: `divideName_eq`, a file name is its stem, a dot and its
extension.
-/
import IdlCompiler.Text.Blank

namespace IdlCompiler.Path

/-- The texts between the slashes of a path, also the empty ones. -/
def rawNames (path : String) : List String :=
  (Text.splitOn '/' path.toList).map String.ofList

/-- The names of a path, `..` among them. -/
def names (path : String) : List String :=
  (rawNames path).filter fun name => name ≠ "" && name ≠ "."

/-- Tells whether a path starts at the top of the tree. -/
def isAbsolute (path : String) : Bool := path.toList.head? = some '/'

/-- Tells whether a path ends with a slash. -/
def hasFinalSlash (path : String) : Bool := path.toList.getLast? = some '/'

/-- The names that a path leads along, with an empty one for a slash at the end: what stands
before it has to be a directory. -/
def steps (path : String) : List String :=
  let names := (rawNames path).filter fun name => name ≠ ""
  if hasFinalSlash path then names ++ [""] else names

/-- The path of something inside a directory. -/
def join (directory path : String) : String :=
  if isAbsolute path || directory = "" then path
  else if hasFinalSlash directory then directory ++ path
  else directory ++ "/" ++ path

/-- The path of something below a directory, by the names that lead to it. -/
def joinAll (directory : String) (names : List String) : String := names.foldl join directory

/-- Texts between slashes without those at the end that lead nowhere. -/
def dropIdleEnd (names : List String) : List String :=
  (names.reverse.dropWhile fun name => name = "" || name = ".").reverse

/-- The paths above a path, each as its user wrote it, from the last to the first.  The top
of the tree, or the place that a path starts at, is the empty path and is not among them. -/
def above (path : String) : List String :=
  match rawNames path with
  | [] => []
  | first :: rest =>
    let names := dropIdleEnd rest
    let shorter := (List.range names.length).reverse.map fun n => names.take n
    let ends := shorter.filter fun names => dropIdleEnd names = names
    (ends.map fun names => "/".intercalate (first :: names)).filter fun path => path ≠ ""

/-- The path of the directory that the last name of a path stands in.  It is empty if there
is no other name. -/
def parent (path : String) : String := (above path).headD ""

/-- The last name of a path, unless it leads upwards. -/
def fileName? (path : String) : Option String :=
  match (names path).getLast? with
  | some ".." | none => none
  | some name => some name

/-- Divides a file name into its stem and its extension, which stands behind the last dot.
A dot at the start begins no extension. -/
def divideName (name : List Char) : List Char × Option (List Char) :=
  match Text.splitLast? '.' name with
  | some (c :: stem, extension) => (c :: stem, some extension)
  | _ => (name, none)

/-- The extension of the file that a path leads to. -/
def extension? (path : String) : Option String :=
  ((fileName? path).bind fun name => (divideName name.toList).2).map String.ofList

/-! ## Small laws -/

theorem divideName_eq {name stem extension : List Char}
    (h : divideName name = (stem, some extension)) :
    name = stem ++ '.' :: extension ∧ stem ≠ [] ∧ '.' ∉ extension := by
  unfold divideName at h
  split at h
  · rename_i c before behind hs
    simp only [Prod.mk.injEq, Option.some.injEq] at h
    obtain ⟨rfl, rfl⟩ := h
    obtain ⟨h₁, h₂⟩ := Text.eq_of_splitLast?_eq_some hs
    exact ⟨h₁, List.cons_ne_nil _ _, h₂⟩
  · simp at h

theorem divideName_append {stem extension : List Char} (hs : stem ≠ []) (he : '.' ∉ extension) :
    divideName (stem ++ '.' :: extension) = (stem, some extension) := by
  cases stem with
  | nil => exact absurd rfl hs
  | cons c stem => rw [divideName, Text.splitLast?_append he]

end IdlCompiler.Path
