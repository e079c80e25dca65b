/-
# File trees

A file tree has files, directories and symbolic links at locations, and operations on them
that succeed and fail as those of an operating system do.  Every file carries the time of
the last writing; the clock of a tree goes on only when it is told to.

A path leads along its names from the top of the tree.  A link on the way is followed; a
link at the end is followed by some operations and not by others.  Main statements:
`entryAt?_put` and `entryAt?_erase`, what storing and removing an entry do to every location.
-/
import IdlCompiler.FileTree.Error
import IdlCompiler.FileTree.Path

namespace IdlCompiler

/-- A place in a tree: the names of the directories from the top down, and its own. -/
abbrev Location := List String

/-- What stands at a location. -/
inductive Entry where
  | file (content : ByteArray) (modified : Nat)
  | directory
  | link (target : String)
deriving Inhabited

/-- Tells whether an entry is a directory. -/
def Entry.isDirectory : Entry → Bool
  | directory => true
  | _ => false

/-- A file tree. -/
structure FileTree where
  /-- The entries with their locations.  The top directory is not among them. -/
  entries : List (Location × Entry) := []
  /-- The time that files written now carry. -/
  now : Nat := 0
  /-- No location has two entries. -/
  distinct : (entries.map Prod.fst).Nodup := by simp

namespace FileTree

/-! ## Entries -/

/-- The entry at a location.  The top of a tree is always a directory. -/
def entryAt? (t : FileTree) (l : Location) : Option Entry :=
  if l = [] then some .directory else (t.entries.find? fun e => e.1 = l).map Prod.snd

theorem nodup_filter {entries : List (Location × Entry)} (p : Location × Entry → Bool)
    (h : (entries.map Prod.fst).Nodup) : ((entries.filter p).map Prod.fst).Nodup :=
  h.sublist (List.filter_sublist.map _)

/-- Stores an entry in place of the one that was there. -/
def put (t : FileTree) (l : Location) (entry : Entry) : FileTree where
  entries := (l, entry) :: t.entries.filter fun e => e.1 ≠ l
  now := t.now
  distinct := List.nodup_cons.2 ⟨by simp, nodup_filter _ t.distinct⟩

/-- Removes the entry at a location. -/
def erase (t : FileTree) (l : Location) : FileTree where
  entries := t.entries.filter fun e => e.1 ≠ l
  now := t.now
  distinct := nodup_filter _ t.distinct

/-- Tells whether a directory stands at a location. -/
def isDirectoryAt (t : FileTree) (l : Location) : Bool :=
  (t.entryAt? l).any Entry.isDirectory

/-- The tree at a later time. -/
def tick (t : FileTree) : FileTree := { t with now := t.now + 1 }

/-! ## Following paths -/

/-- The longest name in bytes. -/
def maxNameSize : Nat := 255

/-- The longest path in bytes. -/
def maxPathSize : Nat := 4095

/-- The most links on the way to one location. -/
def maxLinks : Nat := 40

/-- What a path is followed for, which decides about its end. -/
inductive Purpose where
  /-- To come to the entry itself: a link at the end is not followed. -/
  | entry
  /-- To come to what the entry leads to. -/
  | target
  /-- To make a file at the end of all links.  No file is made under a name with a slash
  behind it, whether or not something is there. -/
  | making
deriving DecidableEq, Repr

/-- Leads along names from a directory.  The last name need not exist.  A link that is
followed is left to `jump`, together with the names behind it. -/
def follow (t : FileTree) (purpose : Purpose)
    (jump : Location → (target : String) → List String → Except Error Location) :
    Location → List String → Except Error Location
  | here, [] => .ok here
  | here, name :: rest =>
    if name = "" || name = "." then follow t purpose jump here rest
    else if name = ".." then follow t purpose jump here.dropLast rest
    else if purpose = .making && rest = [""] then .error .isADirectory
    else if maxNameSize < name.utf8ByteSize then .error .nameTooLong
    else match t.entryAt? (here ++ [name]) with
      | none => if rest.isEmpty then .ok (here ++ [name]) else .error .notFound
      | some (.file ..) => if rest.isEmpty then .ok (here ++ [name]) else .error .notADirectory
      | some .directory => follow t purpose jump (here ++ [name]) rest
      | some (.link target) =>
        if rest.isEmpty && purpose = .entry then .ok (here ++ [name]) else jump here target rest

/-- Leads along names over at most so many links. -/
def followWithin (t : FileTree) (purpose : Purpose) :
    (links : Nat) → Location → List String → Except Error Location
  | 0 => follow t purpose fun _ _ _ => .error .tooManyLinks
  | links + 1 => follow t purpose fun here target rest =>
    followWithin t purpose links (if Path.isAbsolute target then [] else here)
      (Path.steps target ++ rest)

/-- Leads along names from the top. -/
def resolve (t : FileTree) (purpose : Purpose) (names : List String) :
    Except Error Location := t.followWithin purpose maxLinks [] names

/-- Tells whether a path is not too long. -/
def isShort (path : String) : Bool := path.utf8ByteSize ≤ maxPathSize

/-- A text that can be a path. -/
def checkPath (path : String) : Except Error Unit :=
  if path = "" then .error .notFound
  else if path.toList.contains '\x00' then .error .nulInPath
  else if isShort path then .ok ()
  else .error .nameTooLong

/-- The location that a path leads to when it is followed for a purpose. -/
def locate (t : FileTree) (purpose : Purpose) (path : String) : Except Error Location := do
  checkPath path
  t.resolve purpose (Path.steps path)

/-- The entry that a path leads to through all links. -/
def find (t : FileTree) (path : String) : Except Error Entry := do
  match t.entryAt? (← t.locate .target path) with
  | some entry => .ok entry
  | none => .error .notFound

/-- The directory that the last name of a path stands in, and this name.  There is no such
name at the top. -/
def locateParent (t : FileTree) (path : String) : Except Error (Location × Option String) := do
  checkPath path
  let names := (Path.rawNames path).filter fun name => name ≠ ""
  let above ← t.resolve .target (names.dropLast ++ [""])
  return (above, names.getLast?)

/-! ## Looking -/

/-- Tells whether a path leads to a directory. -/
def isDirectory (t : FileTree) (path : String) : Bool :=
  match t.find path with
  | .ok .directory => true
  | _ => false

/-- The text of a file. -/
def readText (t : FileTree) (path : String) : Except Error String := do
  match ← t.find path with
  | .file content _ =>
    match String.fromUTF8? content with
    | some text => .ok text
    | none => .error .notText
  | _ => .error .isADirectory

/-- Tells whether a path leads to a file. -/
def isFile (t : FileTree) (path : String) : Bool :=
  match t.find path with
  | .ok (.file ..) => true
  | _ => false

/-! ## Changing -/

/-- Writes a file.  It is made if it is not there, and keeps nothing of its content. -/
def writeFile (t : FileTree) (path : String) (content : ByteArray) : Except Error FileTree := do
  let l ← t.locate .making path
  match t.entryAt? l with
  | some .directory => .error .isADirectory
  | _ => .ok (t.put l (.file content t.now))

/-- Makes a directory in one that is there. -/
def makeDirectory (t : FileTree) (path : String) : Except Error FileTree := do
  match ← t.locateParent path with
  | (above, some name) =>
    if name = "." || name = ".." then .error .alreadyExists
    else if maxNameSize < name.utf8ByteSize then .error .nameTooLong
    else match t.entryAt? (above ++ [name]) with
      | some _ => .error .alreadyExists
      | none => .ok (t.put (above ++ [name]) .directory)
  | (_, none) => .error .alreadyExists

/-- Makes a directory; if something above it is missing, makes that first.  A directory
that is there already is as good as one made now. -/
def makeAfter (t : FileTree) (path : String) (makeAbove : Unit → Except Error Unit × FileTree) :
    Except Error Unit × FileTree :=
  let again (t : FileTree) : Except Error Unit × FileTree := match t.makeDirectory path with
    | .ok t => (.ok (), t)
    | .error e => (if t.isDirectory path then .ok () else .error e, t)
  match t.makeDirectory path with
  | .error .notFound =>
    match makeAbove () with
    | (.ok (), t) => again t
    | failed => failed
  -- Here the first attempt is the last one, and `again` repeats it on the same tree.
  | _ => again t

/-- Makes a directory and those above it that are missing, where `above` has the paths
above it from the last to the first.  Directories that are made stay even if one further
down cannot be made. -/
def makeWithAbove (t : FileTree) :
    (above : List String) → (path : String) → Except Error Unit × FileTree
  | [], path => t.makeAfter path fun _ => (.ok (), t)
  | next :: rest, path => t.makeAfter path fun _ => makeWithAbove t rest next

/-- Makes a directory and those above it that are missing.  The empty path stands for a
directory that is there. -/
def makeDirectories (t : FileTree) (path : String) : Except Error Unit × FileTree :=
  if path = "" then (.ok (), t) else t.makeWithAbove (Path.above path) path

/-- The start of the names of fresh directories. -/
def freshStart : String := "run-"

/-- The name of a fresh directory, which ends with a number of at least six digits. -/
def freshName (n : Nat) : String :=
  let digits := Nat.toDigits 10 n
  freshStart ++ String.ofList (List.replicate (6 - digits.length) '0' ++ digits)

/-- Makes a directory with a name that is not there yet, and gives its path. -/
def makeFresh (t : FileTree) (parent : String) : Except Error (String × FileTree) := do
  let l ← t.resolve .target (Path.steps parent ++ [""])
  let candidates := (List.range (t.entries.length + 1)).map freshName
  match candidates.find? fun name => (t.entryAt? (l ++ [name])).isNone with
  | some name =>
    checkPath (Path.join parent name)
    if maxNameSize < name.utf8ByteSize then .error .nameTooLong
    else .ok (Path.join parent name, t.put (l ++ [name]) .directory)
  | none => .error .alreadyExists

/-- Makes a link where nothing is. -/
def makeLink (t : FileTree) (path target : String) : Except Error FileTree := do
  checkPath target
  let l ← t.locate .entry path
  match t.entryAt? l with
  | some _ => .error .alreadyExists
  | none => .ok (t.put l (.link target))

/-- Removes a file or a link. -/
def removeFile (t : FileTree) (path : String) : Except Error FileTree := do
  let l ← t.locate .entry path
  match t.entryAt? l with
  | none => .error .notFound
  | some .directory => .error .isADirectory
  | some _ => .ok (t.erase l)

/-- Removes a directory with nothing in it. -/
def removeDirectory (t : FileTree) (path : String) : Except Error FileTree := do
  match ← t.locateParent path with
  | (above, some name) =>
    if name = "." then .error .invalidArgument
    else if name = ".." then .error .notEmpty
    else match t.entryAt? (above ++ [name]) with
      | none => .error .notFound
      | some .directory =>
        if t.entries.any fun e => (above ++ [name]).isPrefixOf e.1 && e.1 ≠ above ++ [name] then
          .error .notEmpty
        else .ok (t.erase (above ++ [name]))
      | some _ => .error .notADirectory
  | (_, none) => .error .notEmpty

/-! ## Small laws -/

@[simp] theorem entryAt?_nil (t : FileTree) : t.entryAt? [] = some .directory := rfl

theorem find?_filter_ne (entries : List (Location × Entry)) {l m : Location} (h : m ≠ l) :
    (entries.filter fun e => e.1 ≠ l).find? (fun e => e.1 = m)
      = entries.find? fun e => e.1 = m := by
  rw [List.find?_filter]
  congr 1
  funext e
  by_cases he : e.1 = m <;> simp [he, h]

theorem entryAt?_put (t : FileTree) {l m : Location} (h : l ≠ []) (entry : Entry) :
    (t.put l entry).entryAt? m = if m = l then some entry else t.entryAt? m := by
  unfold entryAt? put
  by_cases hm : m = l
  · subst hm
    simp [h]
  · rw [List.find?_cons_of_neg (by simpa using Ne.symm hm), find?_filter_ne _ hm, if_neg hm]

theorem entryAt?_erase (t : FileTree) {l m : Location} (h : l ≠ []) :
    (t.erase l).entryAt? m = if m = l then none else t.entryAt? m := by
  unfold entryAt? erase
  by_cases hm : m = l
  · subst hm
    simp [h]
  · rw [find?_filter_ne _ hm, if_neg hm]

end FileTree

end IdlCompiler
