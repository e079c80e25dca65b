/-
# Mirrored directories

Two directories mirror each other if the same stands below both, whenever it was written.
Making directories and writing files under the paths of two workspaces that mirror each other
goes in the same way, and the workspaces mirror each other afterwards.

Main statements: `Mirrors.makeDirectories` and `Mirrors.writeFile`.
-/
import IdlCompiler.Proofs.Tidiness

namespace IdlCompiler.FileTree

open IdlCompiler.Path (IsPlain IsName walked joinAll)

variable {t u t' u' : FileTree} {p q l : Location} {path path' name : String}
  {way way' : List Location} {names : List String} {text : String}

/-! ## Entries without their times -/

/-- An entry without the time of its writing. -/
def untimed : Entry → Entry
  | .file content _ => .file content 0
  | entry => entry

/-- What stands at a location, whenever it was written. -/
def contentAt? (t : FileTree) (l : Location) : Option Entry := (t.entryAt? l).map untimed

theorem contentAt?_eq_of_entryAt?_eq (h : t.entryAt? p = u.entryAt? q) :
    t.contentAt? p = u.contentAt? q := by
  rw [contentAt?, h, contentAt?]

theorem contentAt?_eq_none_iff : t.contentAt? l = none ↔ t.entryAt? l = none := by
  simp [contentAt?]

theorem contentAt?_eq_directory_iff :
    t.contentAt? l = some .directory ↔ t.entryAt? l = some .directory := by
  rw [contentAt?]
  rcases t.entryAt? l with _ | _ | _ | _ <;> simp [untimed]

theorem contentAt?_eq_file_iff {content : ByteArray} :
    t.contentAt? l = some (.file content 0) ↔
      ∃ modified, t.entryAt? l = some (.file content modified) := by
  rw [contentAt?]
  rcases t.entryAt? l with _ | _ | _ | _ <;> simp [untimed]

theorem isFileAt_iff_contentAt? :
    t.IsFileAt l ↔ ∃ content, t.contentAt? l = some (.file content 0) := by
  simp only [contentAt?_eq_file_iff, IsFileAt]

theorem eq_toUTF8_of_fromUTF8? {content : ByteArray} (h : String.fromUTF8? content = some text) :
    content = text.toUTF8 := by
  rw [String.fromUTF8?] at h
  split at h
  · obtain rfl := Option.some.inj h
    rfl
  · simp at h

theorem hasText_iff_contentAt? :
    t.HasText l text ↔ t.contentAt? l = some (.file text.toUTF8 0) := by
  rw [contentAt?_eq_file_iff]
  constructor
  · rintro ⟨content, modified, hentry, htext⟩
    exact ⟨modified, eq_toUTF8_of_fromUTF8? htext ▸ hentry⟩
  · rintro ⟨modified, hentry⟩
    exact ⟨_, modified, hentry, fromUTF8?_toUTF8 text⟩

/-! ## Mirrored directories -/

/-- The same stands below two places, whenever it was written. -/
def Mirrors (t : FileTree) (p : Location) (u : FileTree) (q : Location) : Prop :=
  ∀ names, t.contentAt? (p ++ names) = u.contentAt? (q ++ names)

theorem Mirrors.of_entryAt?_eq (h : ∀ names, t.entryAt? (p ++ names) = u.entryAt? (q ++ names)) :
    Mirrors t p u q := fun names => contentAt?_eq_of_entryAt?_eq (h names)

namespace Mirrors

theorem symm (h : Mirrors t p u q) : Mirrors u q t p := fun names => (h names).symm

theorem trans {v : FileTree} {r : Location} (h : Mirrors t p u q) (h' : Mirrors u q v r) :
    Mirrors t p v r := fun names => (h names).trans (h' names)

theorem entryAt?_eq_directory_iff (h : Mirrors t p u q) (names : List String) :
    t.entryAt? (p ++ names) = some .directory ↔ u.entryAt? (q ++ names) = some .directory := by
  rw [← contentAt?_eq_directory_iff, h names, contentAt?_eq_directory_iff]

theorem isFileAt_iff (h : Mirrors t p u q) (names : List String) :
    t.IsFileAt (p ++ names) ↔ u.IsFileAt (q ++ names) := by
  simp only [isFileAt_iff_contentAt?, h names]

theorem hasText_iff (h : Mirrors t p u q) (names : List String) :
    t.HasText (p ++ names) text ↔ u.HasText (q ++ names) text := by
  simp only [hasText_iff_contentAt?, h names]

/-- The same is in the way of names. -/
theorem obstacle?_eq (h : Mirrors t p u q) (names : List String) :
    t.obstacle? p names = u.obstacle? q names :=
  obstacle?_congr fun start _ _ => h.isFileAt_iff start

/-- Directories that are made along the same names are mirrored. -/
theorem of_paves (h : Mirrors t p u q) (ht : t.Paves p names t') (hu : u.Paves q names u') :
    Mirrors t' p u' q := by
  intro more
  by_cases hmade : more <+: names ∧ t.obstacle? p more = none
  · have hdirectory := ht.made more hmade.1 hmade.2
    have hdirectory' := hu.made more hmade.1 (h.obstacle?_eq more ▸ hmade.2)
    rw [contentAt?_eq_directory_iff.mpr hdirectory, contentAt?_eq_directory_iff.mpr hdirectory']
  · have hkept {d : Location} {v w : FileTree} (hpaves : v.Paves d names w)
        (hobstacle : v.obstacle? d more = t.obstacle? p more) :
        w.entryAt? (d ++ more) = v.entryAt? (d ++ more) := by
      refine hpaves.kept _ fun start hstart hclear _ heq => hmade ?_
      obtain rfl := List.append_cancel_left heq
      exact ⟨hstart, hobstacle ▸ hclear⟩
    exact (contentAt?_eq_of_entryAt?_eq (hkept ht rfl)).trans ((h more).trans
      (contentAt?_eq_of_entryAt?_eq (hkept hu (h.obstacle?_eq more).symm)).symm)

/-- Entries that are stored under the same names are mirrored. -/
theorem put (h : Mirrors t p u q) (hp : p ++ names ≠ []) (hq : q ++ names ≠ [])
    {entry entry' : Entry} (hentry : untimed entry = untimed entry') :
    Mirrors (t.put (p ++ names) entry) p (u.put (q ++ names) entry') q := by
  intro more
  rw [contentAt?, contentAt?, entryAt?_put t hp, entryAt?_put u hq]
  by_cases hmore : more = names
  · simp [hmore, hentry]
  · rw [if_neg fun heq => hmore (List.append_cancel_left heq),
      if_neg fun heq => hmore (List.append_cancel_left heq)]
    exact h more

/-- **Directories are made in the same way under the paths of workspaces that mirror each
other.** -/
theorem makeDirectories (h : Mirrors t p u q) (ht : t.WellFormed) (hu : u.WellFormed)
    (hp : t.IsWorkspace path p way) (hq : u.IsWorkspace path' q way')
    (hnames : ∀ a ∈ names, IsName a) (hne : joinAll path names ≠ "")
    (hne' : joinAll path' names ≠ "")
    (hcheck : checkPath (joinAll path' names) = checkPath (joinAll path names)) :
    (t.makeDirectories (joinAll path names)).1 = (u.makeDirectories (joinAll path' names)).1 ∧
      Mirrors (t.makeDirectories (joinAll path names)).2 p
        (u.makeDirectories (joinAll path' names)).2 q := by
  cases hpath : checkPath (joinAll path names) with
  | error e =>
    rw [makeDirectories_of_checkPath hne hpath,
      makeDirectories_of_checkPath hne' (hcheck.trans hpath)]
    exact ⟨rfl, h⟩
  | ok =>
    obtain ⟨_, hmade, hpaves⟩ := (hp.leadsOn hnames).makeDirectories_eq ht fun _ => hpath
    obtain ⟨_, hmade', hpaves'⟩ :=
      (hq.leadsOn hnames).makeDirectories_eq hu fun _ => hcheck.trans hpath
    rw [hmade, hmade']
    exact ⟨by rw [h.obstacle?_eq], h.of_paves hpaves hpaves'⟩

end Mirrors

/-- A file is written in a directory that is there, unless a directory has its name. -/
theorem LeadsOn.writeFile_eq (ht : t.WellFormed) (h : t.LeadsOn path p (names ++ [name]))
    (hcheck : checkPath path = .ok ()) (hslash : Path.hasFinalSlash path = false)
    (hclear : t.obstacle? p names = none) (hdirectory : t.entryAt? (p ++ names) = some .directory)
    (content : ByteArray) : t.writeFile path content =
      if maxNameSize < name.utf8ByteSize then .error .nameTooLong
      else match t.entryAt? (p ++ (names ++ [name])) with
        | some .directory => .error .isADirectory
        | _ => .ok (t.put (p ++ (names ++ [name])) (.file content t.now)) := by
  rw [FileTree.writeFile, h.locate_eq_ite ht hcheck hslash hclear hdirectory]
  split <;> rfl

/-- **Files are written in the same way under the paths of workspaces that mirror each other.** -/
theorem Mirrors.writeFile (h : Mirrors t p u q) (ht : t.WellFormed) (hu : u.WellFormed)
    (hp : t.IsWorkspace path p way) (hq : u.IsWorkspace path' q way')
    (hnames : ∀ a ∈ names ++ [name], IsName a) (hclear : t.obstacle? p names = none)
    (hdirectory : t.entryAt? (p ++ names) = some .directory)
    (hcheck : checkPath (joinAll path' (names ++ [name]))
      = checkPath (joinAll path (names ++ [name]))) (content : ByteArray) :
    (t.changed (t.writeFile (joinAll path (names ++ [name])) content)).1
        = (u.changed (u.writeFile (joinAll path' (names ++ [name])) content)).1 ∧
      Mirrors (t.changed (t.writeFile (joinAll path (names ++ [name])) content)).2 p
        (u.changed (u.writeFile (joinAll path' (names ++ [name])) content)).2 q := by
  cases hpath : checkPath (joinAll path (names ++ [name])) with
  | error e =>
    have hfails {v : FileTree} {file : String} (hfile : checkPath file = .error e) :
        v.writeFile file content = .error e := by
      rw [FileTree.writeFile, locate, hfile]
      rfl
    rw [hfails hpath, hfails (hcheck.trans hpath)]
    exact ⟨rfl, h⟩
  | ok =>
    rw [(hp.leadsOn hnames).writeFile_eq ht hpath
      (Path.hasFinalSlash_joinAll path names (hnames name (by simp))) hclear hdirectory,
      (hq.leadsOn hnames).writeFile_eq hu (hcheck.trans hpath)
      (Path.hasFinalSlash_joinAll path' names (hnames name (by simp)))
      (h.obstacle?_eq names ▸ hclear) ((h.entryAt?_eq_directory_iff names).mp hdirectory)]
    split
    · exact ⟨rfl, h⟩
    by_cases hbusy : t.entryAt? (p ++ (names ++ [name])) = some .directory
    · rw [hbusy, (h.entryAt?_eq_directory_iff _).mp hbusy]
      exact ⟨rfl, h⟩
    · have hbusy' := mt (h.entryAt?_eq_directory_iff (names ++ [name])).mpr hbusy
      have hput {v : FileTree} {l : Location} (hl : v.entryAt? l ≠ some .directory) :
          (match v.entryAt? l with
            | some .directory => Except.error FileTree.Error.isADirectory
            | _ => .ok (v.put l (.file content v.now)))
            = .ok (v.put l (.file content v.now)) := by
        split
        · contradiction
        · rfl
      rw [hput hbusy, hput hbusy']
      exact ⟨rfl, h.put (by simp) (by simp) rfl⟩

end IdlCompiler.FileTree
