/-
# What a discovery finds

A discovery finds the files below a directory that are selected, each of them once, in the order
of their paths.  A walk may come upon the files in any order: what it answers is the same but for
the order, and sorting takes the order away.  A directory that cannot be looked into fails the
walk, and nothing but a path that is too long makes it so.

Main statements: `isBlocked_iff`, which directories cannot be looked into;
`exists_filesAmong_eq_ok`, what a walk answers; `finds_candidates`, what is made of it; and
`discover_finds`.
-/
import IdlCompiler.Proofs.PatternSets
import IdlCompiler.Proofs.Sources
import Mathlib.Data.List.Sort
import Mathlib.Data.String.Basic

namespace IdlCompiler

open IdlCompiler.Path (IsName joinAll)

namespace FileTree

variable {t : FileTree} {root path : String} {l : Location} {names : List String} {entry : Entry}
  {order : List (List String × Entry)} {σ : Type} {server : Server σ} {s : σ}

/-! ## Walks in any order -/

/-- What a walk from a path answers that comes upon entries one after the other. -/
def filesAmong (t : FileTree) (path : String) (order : List (List String × Entry)) :
    Except WalkError (List (List String)) := do
  let files ← order.filterM fun (names, entry) => t.isWalkedFile (joinAll path names) entry
  return files.map Prod.fst

/-- A server shows a file tree: it tells which paths lead to directories, and it walks through
the tree.  A walk comes upon what is there in any order. -/
structure IsShownBy (t : FileTree) (server : Server σ) (s : σ) : Prop where
  isDirectory : ∀ path, server (.isDirectory path) s = (t.isDirectory path, s)
  filesBelow : ∀ path l, t.locate .target path = .ok l → ∃ order,
    order.Perm (t.walkBelow path l) ∧ server (.filesBelow path) s = (t.filesAmong path order, s)

theorem filesBelow_eq (h : t.locate .target path = .ok l) :
    t.filesBelow path = t.filesAmong path (t.walkBelow path l) := by
  rw [filesBelow, h]
  rfl

theorem isShownBy_serve (t : FileTree) : t.IsShownBy serve t where
  isDirectory _ := rfl
  filesBelow path l h := ⟨_, .refl _, by rw [← filesBelow_eq h]; rfl⟩

/-- Names lead from a directory through directories to a file, or to a link whose path leads to
one. -/
structure IsFileBelow (t : FileTree) (root : String) (l : Location) (names : List String) :
    Prop where
  reached : t.isReached l names
  file : t.IsFileAt (l ++ names) ∨
    (∃ target, t.entryAt? (l ++ names) = some (.link target)) ∧ t.isFile (joinAll root names)

/-- A walk comes to a directory that its path does not lead to. -/
def IsBlocked (t : FileTree) (root : String) (l : Location) : Prop :=
  ∃ names, t.isReached l names ∧ t.entryAt? (l ++ names) = some .directory ∧
    ∀ entry, t.find (joinAll root names) ≠ .ok entry

theorem isShort_of_find (h : t.find path = .ok entry) : isShort path := by
  rw [FileTree.find] at h
  obtain ⟨l, hl, -⟩ := Except.bind_eq_ok_iff.mp h
  exact (checkPath_eq_ok_iff.mp (locate_eq_ok_iff.mp hl).1).2.2

/-- Only directories can keep a walk from going on. -/
theorem exists_isWalkedFile_eq_ok_iff : (∃ b, t.isWalkedFile path entry = .ok b) ↔
    (entry = .directory → ∃ found, t.find path = .ok found) := by
  cases entry with
  | file | link => simp
  | directory =>
    simp only [isWalkedFile_directory]
    cases t.find path <;> simp [Except.map]

theorem isWalkedFile_eq_ok_true_iff : t.isWalkedFile path entry = .ok true ↔
    (∃ content modified, entry = .file content modified) ∨
      (∃ target, entry = .link target) ∧ t.isFile path := by
  cases entry with
  | file | link => simp
  | directory =>
    simp only [isWalkedFile_directory]
    cases t.find path <;> simp [Except.map]

theorem isFileBelow_iff (hl : t.entryAt? l = some .directory) : t.IsFileBelow root l names ↔
    ∃ entry, (names, entry) ∈ t.below l ∧ t.isWalkedFile (joinAll root names) entry = .ok true := by
  simp only [mem_below_iff, isWalkedFile_eq_ok_true_iff]
  constructor
  · rintro ⟨reached, ⟨content, modified, hfile⟩ | ⟨⟨target, hlink⟩, hfile⟩⟩
    · exact ⟨_, ⟨by rintro rfl; simp [hl] at hfile, hfile, reached⟩, .inl ⟨_, _, rfl⟩⟩
    · exact ⟨_, ⟨by rintro rfl; simp [hl] at hlink, hlink, reached⟩, .inr ⟨⟨_, rfl⟩, hfile⟩⟩
  · rintro ⟨entry, ⟨-, hentry, reached⟩, ⟨content, modified, rfl⟩ | ⟨⟨target, rfl⟩, hfile⟩⟩
    · exact ⟨reached, .inl ⟨_, _, hentry⟩⟩
    · exact ⟨reached, .inr ⟨⟨_, hentry⟩, hfile⟩⟩

/-- The directory that names lead into is reached as well. -/
theorem isReached_dropLast (hne : names ≠ []) (h : t.isReached l names) :
    t.isReached l names.dropLast ∧ t.entryAt? (l ++ names.dropLast) = some .directory := by
  obtain ⟨init, last, rfl⟩ := (List.eq_nil_or_concat' names).resolve_left hne
  simp only [isReached_append, isReached, Bool.and_true,
    Bool.and_eq_true] at h
  rw [List.dropLast_concat]
  exact ⟨h.1, isDirectoryAt_iff.mp h.2⟩

/-- Where every directory can be looked into, a walk comes upon everything. -/
theorem walkBelow_eq_below (h : ¬ t.IsBlocked root l) : t.walkBelow root l = t.below l := by
  refine List.filter_eq_self.mpr fun ⟨names, entry⟩ hmem => ?_
  obtain ⟨hne, -, hreached⟩ := mem_below_iff.mp hmem
  obtain ⟨hreached, hdirectory⟩ := isReached_dropLast hne hreached
  by_contra hlong
  exact h ⟨names.dropLast, hreached, hdirectory, fun entry hfind => hlong (isShort_of_find hfind)⟩

/-- All names of a tree are some that can be stored. -/
def HasStorableNames (t : FileTree) : Prop :=
  ∀ l entry, t.entryAt? l = some entry →
    ∀ a ∈ l, a.utf8ByteSize ≤ maxNameSize ∧ '\x00' ∉ a.toList

/-- Only a path that is too long keeps a walk from a directory. -/
theorem isBlocked_iff (ht : t.WellFormed) (hstorable : t.HasStorableNames)
    (hroot : t.locate .target root = .ok l) (hl : t.entryAt? l = some .directory) :
    t.IsBlocked root l ↔ ∃ names, t.isReached l names ∧
      t.entryAt? (l ++ names) = some .directory ∧ ¬ isShort (joinAll root names) := by
  constructor
  · rintro ⟨names, hreached, hdirectory, hfind⟩
    refine ⟨names, hreached, hdirectory, fun hshort => hfind .directory ?_⟩
    have hstored (a : String) (ha : a ∈ names) :=
      hstorable _ _ hdirectory a (List.mem_append_right _ ha)
    have hnames (a : String) (ha : a ∈ names) :=
      ht.isName_of_mem hdirectory a (List.mem_append_right _ ha)
    have hlocate : t.locate .target (joinAll root names) = .ok (l ++ names) := by
      rcases eq_or_ne names [] with rfl | hne
      · rwa [List.append_nil]
      · have hcheck := checkPath_eq_ok_iff.mp (locate_eq_ok_iff.mp hroot).1
        refine ht.locate_joinAll hroot hl hne hnames (fun a ha => (hstored a ha).1)
          (checkPath_eq_ok_iff.mpr ⟨Path.joinAll_ne_empty hne hnames, fun hnul => ?_, hshort⟩)
          hreached (.inr hdirectory)
        obtain h | h | ⟨a, ha, h⟩ := Path.mem_of_mem_joinAll hnul
        · exact hcheck.2.1 h
        · exact absurd h (by decide)
        · exact (hstored a ha).2 h
    rw [FileTree.find, hlocate]
    simp [bind, Except.bind, hdirectory]
  · rintro ⟨names, hreached, hdirectory, hlong⟩
    exact ⟨names, hreached, hdirectory, fun entry hfind => hlong (isShort_of_find hfind)⟩

/-- A walk comes upon one of the directories that cannot be looked into. -/
theorem IsBlocked.exists_mem_walkBelow (h : t.IsBlocked root l) (hroot : t.find root = .ok entry) :
    ∃ names, (names, .directory) ∈ t.walkBelow root l ∧
      ∀ found, t.find (joinAll root names) ≠ .ok found := by
  obtain ⟨names, hreached, hdirectory, hfind⟩ := h
  induction names using List.reverseRecOn with
  | nil => exact absurd hroot (hfind _)
  | append_singleton init last ih =>
    by_cases hshort : isShort (joinAll root init)
    · refine ⟨init ++ [last], List.mem_filter.mpr ⟨?_, by simpa using hshort⟩, hfind⟩
      exact mem_below_iff.mpr ⟨by simp, hdirectory, hreached⟩
    · obtain ⟨hinit, habove⟩ := isReached_dropLast (by simp) hreached
      rw [List.dropLast_concat] at hinit habove
      exact ih hinit habove fun found hfound => hshort (isShort_of_find hfound)

theorem exists_filesAmong_eq_error (horder : order.Perm (t.walkBelow root l))
    (hroot : t.find root = .ok entry) (h : t.IsBlocked root l) :
    ∃ e, t.filesAmong root order = .error e := by
  obtain ⟨names, hmem, hfind⟩ := h.exists_mem_walkBelow hroot
  cases hfiles : t.filesAmong root order with
  | error e => exact ⟨e, rfl⟩
  | ok files =>
    obtain ⟨found, hfound, -⟩ := Except.bind_eq_ok_iff.mp hfiles
    have htest := exists_filterM_eq_ok_iff.mp ⟨found, hfound⟩ _ (horder.mem_iff.mpr hmem)
    obtain ⟨entry, hentry⟩ := exists_isWalkedFile_eq_ok_iff.mp htest rfl
    exact absurd hentry (hfind entry)

theorem exists_filesAmong_eq_ok (horder : order.Perm (t.walkBelow root l))
    (hl : t.entryAt? l = some .directory) (h : ¬ t.IsBlocked root l) :
    ∃ files, t.filesAmong root order = .ok files ∧ files.Nodup ∧
      ∀ names, names ∈ files ↔ t.IsFileBelow root l names := by
  rw [walkBelow_eq_below h] at horder
  have htested (found : List String × Entry) (hfound : found ∈ order) :
      ∃ b, t.isWalkedFile (joinAll root found.1) found.2 = .ok b := by
    obtain ⟨-, hentry, hreached⟩ := mem_below_iff.mp (horder.mem_iff.mp hfound)
    refine exists_isWalkedFile_eq_ok_iff.mpr fun hdirectory => ?_
    by_contra hfind
    push Not at hfind
    exact h ⟨found.1, hreached, hdirectory ▸ hentry, hfind⟩
  obtain ⟨found, hfilter⟩ := exists_filterM_eq_ok_iff.mpr htested
  obtain ⟨isFile, htest, rfl⟩ := filterM_eq_ok_iff.mp hfilter
  refine ⟨(order.filter isFile).map Prod.fst, by rw [filesAmong, hfilter]; rfl, ?_, ?_⟩
  · have hall := (horder.map Prod.fst).nodup_iff.mpr (nodup_below t l)
    exact hall.sublist (List.filter_sublist.map _)
  · intro names
    rw [isFileBelow_iff hl]
    simp only [List.mem_map, List.mem_filter]
    constructor
    · rintro ⟨⟨names, entry⟩, ⟨hmem, hfile⟩, rfl⟩
      exact ⟨entry, horder.mem_iff.mp hmem, hfile ▸ htest _ hmem⟩
    · rintro ⟨entry, hmem, hfile⟩
      have hmem := horder.mem_iff.mpr hmem
      exact ⟨(names, entry), ⟨hmem, Except.ok.inj ((htest _ hmem).symm.trans hfile)⟩, rfl⟩

end FileTree

namespace Build

open FileTree

variable {t : FileTree} {root r : String} {l : Location} {names : List String}
  {order : List (List String × Entry)} {selection : Selection} {files : List (List String)}
  {found : List Candidate} {σ : Type} {server : Server σ} {s : σ}

/-! ## Selections -/

namespace Selection

/-- All patterns of a selection can be used. -/
@[mk_iff]
structure IsAllowed (selection : Selection) : Prop where
  includes : ∀ glob ∈ selection.effectiveIncludes, Glob.IsAllowed glob
  excludes : ∀ glob ∈ selection.excludes, Glob.IsAllowed glob

/-- A path is selected. -/
@[mk_iff]
structure Selects (selection : Selection) (path : String) : Prop where
  includes : ∃ glob ∈ selection.effectiveIncludes, Glob.Matches glob path
  excludes : ∀ glob ∈ selection.excludes, ¬ Glob.Matches glob path

/-- Two selections have the same patterns, in any order and any number of times. -/
structure SameAs (selection other : Selection) : Prop where
  includes : ∀ glob, glob ∈ selection.includes ↔ glob ∈ other.includes
  excludes : ∀ glob, glob ∈ selection.excludes ↔ glob ∈ other.excludes

theorem SameAs.mem_effectiveIncludes_iff {other : Selection} (h : selection.SameAs other)
    (glob : String) : glob ∈ selection.effectiveIncludes ↔ glob ∈ other.effectiveIncludes := by
  have hempty : selection.includes = [] ↔ other.includes = [] := by
    simp only [List.eq_nil_iff_forall_not_mem, h.includes]
  unfold effectiveIncludes
  simp only [List.isEmpty_iff, hempty]
  split
  · rfl
  · exact h.includes glob

theorem SameAs.isAllowed_congr {other : Selection} (h : selection.SameAs other) :
    selection.IsAllowed ↔ other.IsAllowed := by
  simp only [isAllowed_iff, h.mem_effectiveIncludes_iff, h.excludes]

theorem SameAs.selects_congr {other : Selection} (h : selection.SameAs other) (path : String) :
    selection.Selects path ↔ other.Selects path := by
  simp only [selects_iff, h.mem_effectiveIncludes_iff, h.excludes]

end Selection

/-! ## Candidates -/

theorem relativePath_inj {other : List String} (hne : names ≠ []) (hnames : ∀ a ∈ names, IsName a)
    (hne' : other ≠ []) (hnames' : ∀ a ∈ other, IsName a)
    (h : relativePath names = relativePath other) : names = other := by
  rw [← Path.rawNames_intercalate hne fun a ha => (hnames a ha).noSlash,
    ← Path.rawNames_intercalate hne' fun a ha => (hnames' a ha).noSlash]
  exact congrArg Path.rawNames h

/-- What a discovery finds below a directory: each file that is selected once, in the order of
the paths. -/
structure Finds (t : FileTree) (root : String) (l : Location) (selection : Selection)
    (found : List Candidate) : Prop where
  increasing : (found.map Candidate.relative).SortedLT
  mem_iff : ∀ r, r ∈ found.map Candidate.relative ↔
    ∃ names, t.IsFileBelow root l names ∧ r = relativePath names ∧ selection.Selects r
  path : ∀ file ∈ found, file.path = Path.join root file.relative

/-- A discovery can find one list only. -/
theorem Finds.unique {other : List Candidate} (h : Finds t root l selection found)
    (h' : Finds t root l selection other) : found = other := by
  have hrestore {found : List Candidate} (h : Finds t root l selection found) :
      found = (found.map Candidate.relative).map fun r => ⟨r, Path.join root r⟩ := by
    conv_lhs => rw [← List.map_id found]
    rw [List.map_map]
    exact List.map_congr_left fun file hfile => by simp [← h.path file hfile]
  have hrelative : found.map Candidate.relative = other.map Candidate.relative :=
    h.increasing.eq_of_mem_iff h'.increasing fun r => by rw [h.mem_iff, h'.mem_iff]
  rw [hrestore h, hrestore h', hrelative]

theorem Finds.congr {other : Selection} (hsame : selection.SameAs other)
    (h : Finds t root l selection found) : Finds t root l other found where
  increasing := h.increasing
  mem_iff r := by simp only [h.mem_iff, hsame.selects_congr]
  path := h.path

theorem isSelected_iff {includes excludes : List Glob.Pattern}
    (hincludes : Glob.readAll selection.effectiveIncludes = .ok includes)
    (hexcludes : Glob.readAll selection.excludes = .ok excludes) (path : String) :
    isSelected includes excludes path ↔ selection.Selects path := by
  have hinclude := Glob.anyMatch_readAll hincludes path
  have hexclude := Glob.anyMatch_readAll hexcludes path
  rw [Selection.selects_iff, ← hinclude, isSelected, Bool.and_eq_true, Bool.not_eq_true',
    Bool.eq_false_iff, Ne, hexclude, and_comm]
  push Not
  rfl

/-- The files that a walk comes upon give what a discovery finds. -/
theorem finds_candidates {includes excludes : List Glob.Pattern} (ht : t.WellFormed)
    (hl : t.entryAt? l = some .directory)
    (hincludes : Glob.readAll selection.effectiveIncludes = .ok includes)
    (hexcludes : Glob.readAll selection.excludes = .ok excludes) (hnodup : files.Nodup)
    (hfiles : ∀ names, names ∈ files ↔ t.IsFileBelow root l names) :
    Finds t root l selection (candidates root includes excludes files) := by
  have hnames {names : List String} (hmem : names ∈ files) :
      names ≠ [] ∧ ∀ a ∈ names, IsName a := by
    obtain ⟨entry, hbelow, -⟩ := (isFileBelow_iff hl).mp ((hfiles names).mp hmem)
    obtain ⟨hne, hnames, -⟩ := ht.of_mem_below hbelow
    exact ⟨hne, hnames⟩
  refine ⟨?_, fun r => ?_, fun file hfile => ?_⟩
  · have hsorted : (candidates root includes excludes files).Pairwise
        fun a b => decide (a.relative ≤ b.relative) :=
      List.pairwise_mergeSort (by simpa using fun a b c => le_trans)
        (by simpa using fun a b => le_total _ _) _
    have hle : ((candidates root includes excludes files).map Candidate.relative).SortedLE :=
      (List.pairwise_map.mpr (by simpa using hsorted)).sortedLE
    refine hle.sortedLT_of_nodup ?_
    rw [candidates, ((List.mergeSort_perm _ _).map Candidate.relative).nodup_iff, List.map_map]
    refine (hnodup.filter _).map_on fun a ha b hb hrelative => ?_
    have ha := hnames (List.mem_filter.mp ha).1
    have hb := hnames (List.mem_filter.mp hb).1
    exact relativePath_inj ha.1 ha.2 hb.1 hb.2 hrelative
  · simp only [List.mem_map, mem_candidates_iff, isSelected_iff hincludes hexcludes, hfiles]
    constructor
    · rintro ⟨_, ⟨names, hfile, hselects, rfl⟩, rfl⟩
      exact ⟨names, hfile, rfl, hselects⟩
    · rintro ⟨names, hfile, rfl, hselects⟩
      exact ⟨_, ⟨names, hfile, hselects, rfl⟩, rfl⟩
  · obtain ⟨names, hmem, -, rfl⟩ := mem_candidates_iff.mp hfile
    exact (join_relativePath root (hnames hmem).1 (hnames hmem).2).symm

/-! ## Discoveries -/

/-- What a discovery answers where a directory is, by what the walk answers. -/
def discovered (root : String) (selection : Selection)
    (walk : Except WalkError (List (List String))) : Except BuildError (List Candidate) := do
  let includes ← (Glob.readAll selection.effectiveIncludes).mapError .pattern
  let excludes ← (Glob.readAll selection.excludes).mapError .pattern
  let files ← walk.mapError .walk
  return candidates root includes excludes files

theorem run_discover_of_missing (hserver : t.IsShownBy server s)
    (hmissing : t.isDirectory root = false) :
    (discover root selection).outcome.run server s = (.ok [], s) := by
  have hpresent := Work.does_request server (.isDirectory root) s
  rw [hserver.isDirectory, hmissing] at hpresent
  exact (Attempt.does_bind_done (Attempt.does_lift hpresent) rfl).run

theorem run_discover (selection : Selection) (hserver : t.IsShownBy server s)
    (hroot : t.locate .target root = .ok l) (hl : t.entryAt? l = some .directory) :
    ∃ order, order.Perm (t.walkBelow root l) ∧
      ((discover root selection).outcome.run server s).1
        = discovered root selection (t.filesAmong root order) := by
  obtain ⟨order, hperm, hwalk⟩ := hserver.filesBelow root l hroot
  refine ⟨order, hperm, ?_⟩
  have hpresent := Work.does_request server (.isDirectory root) s
  have hdirectory : t.isDirectory root := by
    simp [isDirectory, FileTree.find, hroot, hl, bind, Except.bind]
  rw [hserver.isDirectory, hdirectory] at hpresent
  have hbelow := Work.does_request server (.filesBelow root) s
  rw [hwalk] at hbelow
  have hdone {result : Except BuildError (List Glob.Pattern)} :
      (Attempt.ofResult result).outcome.Does server s [] result s := Work.does_done server _ s
  obtain ⟨asked, hdoes⟩ : ∃ asked, (discover root selection).outcome.Does server s asked
      (discovered root selection (t.filesAmong root order)) s := by
    rw [discover, discovered]
    cases (Glob.readAll selection.effectiveIncludes).mapError BuildError.pattern with
    | error e => exact ⟨_, Attempt.does_bind_ok (Attempt.does_lift hpresent)
        (Attempt.does_bind_error hdone)⟩
    | ok includes =>
      cases (Glob.readAll selection.excludes).mapError BuildError.pattern with
      | error e => exact ⟨_, Attempt.does_bind_ok (Attempt.does_lift hpresent)
          (Attempt.does_bind_ok hdone (Attempt.does_bind_error hdone))⟩
      | ok excludes =>
        cases hfiles : t.filesAmong root order with
        | error e =>
          rw [hfiles] at hbelow
          exact ⟨_, Attempt.does_bind_ok (Attempt.does_lift hpresent)
            (Attempt.does_bind_ok hdone (Attempt.does_bind_ok hdone
              (Attempt.does_bind_error (Attempt.does_of BuildError.walk hbelow))))⟩
        | ok files =>
          rw [hfiles] at hbelow
          exact ⟨_, Attempt.does_bind_ok (Attempt.does_lift hpresent)
            (Attempt.does_bind_ok hdone (Attempt.does_bind_ok hdone
              (Attempt.does_bind_done (Attempt.does_of BuildError.walk hbelow) rfl)))⟩
  exact congrArg Prod.fst hdoes.run

/-- The patterns of a selection are read. -/
theorem Selection.IsAllowed.exists_readAll (h : selection.IsAllowed) :
    ∃ includes excludes, Glob.readAll selection.effectiveIncludes = .ok includes ∧
      Glob.readAll selection.excludes = .ok excludes := by
  obtain ⟨includes, hincludes⟩ := Glob.exists_readAll_eq_ok_iff.mpr h.includes
  obtain ⟨excludes, hexcludes⟩ := Glob.exists_readAll_eq_ok_iff.mpr h.excludes
  exact ⟨includes, excludes, hincludes, hexcludes⟩

theorem exists_discovered_eq_pattern (h : ¬ selection.IsAllowed)
    (walk : Except WalkError (List (List String))) :
    ∃ e, discovered root selection walk = .error (.pattern e) := by
  rw [discovered]
  cases hincludes : Glob.readAll selection.effectiveIncludes with
  | error e => exact ⟨e, rfl⟩
  | ok includes =>
    cases hexcludes : Glob.readAll selection.excludes with
    | error e => exact ⟨e, rfl⟩
    | ok excludes =>
      exact absurd ⟨Glob.exists_readAll_eq_ok_iff.mp ⟨_, hincludes⟩,
        Glob.exists_readAll_eq_ok_iff.mp ⟨_, hexcludes⟩⟩ h

theorem exists_discovered_eq_walk (h : selection.IsAllowed)
    {walk : Except WalkError (List (List String))} (hwalk : ∃ e, walk = .error e) :
    ∃ e, discovered root selection walk = .error (.walk e) := by
  obtain ⟨includes, excludes, hincludes, hexcludes⟩ := h.exists_readAll
  obtain ⟨e, rfl⟩ := hwalk
  exact ⟨e, by rw [discovered, hincludes, hexcludes]; rfl⟩

/-- What a discovery finds does not depend on the order in which a walk comes upon it. -/
theorem exists_finds_discovered (ht : t.WellFormed) (hl : t.entryAt? l = some .directory)
    (hallowed : selection.IsAllowed) (hblocked : ¬ t.IsBlocked root l)
    (horder : order.Perm (t.walkBelow root l)) :
    ∃ found, discovered root selection (t.filesAmong root order) = .ok found ∧
      Finds t root l selection found := by
  obtain ⟨includes, excludes, hincludes, hexcludes⟩ := hallowed.exists_readAll
  obtain ⟨files, hfiles, hnodup, hmem⟩ := exists_filesAmong_eq_ok horder hl hblocked
  refine ⟨candidates root includes excludes files, ?_,
    finds_candidates ht hl hincludes hexcludes hnodup hmem⟩
  rw [discovered, hincludes, hexcludes, hfiles]
  rfl

/-- **A discovery finds exactly the files below a directory that are selected.**  A pattern that
cannot be used is reported instead, and then a directory that a walk cannot look into, since its
path is too long.  What is found depends neither on the order in which a walk comes upon the files
nor on the order of the patterns and how often one of them is there. -/
theorem discover_finds (t : FileTree) (ht : t.WellFormed) (root : String) (selection : Selection)
    (server : Server σ) (s : σ) (hserver : t.IsShownBy server s) :
    (t.isDirectory root = false →
      ((discover root selection).outcome.run server s).1 = .ok []) ∧
    ∀ l, t.locate .target root = .ok l → t.entryAt? l = some .directory →
      (t.HasStorableNames → (t.IsBlocked root l ↔ ∃ names, t.isReached l names ∧
        t.entryAt? (l ++ names) = some .directory ∧ ¬ isShort (joinAll root names))) ∧
      (¬ selection.IsAllowed →
        ∃ e, ((discover root selection).outcome.run server s).1 = .error (.pattern e)) ∧
      (selection.IsAllowed → t.IsBlocked root l →
        ∃ e, ((discover root selection).outcome.run server s).1 = .error (.walk e)) ∧
      (selection.IsAllowed → ¬ t.IsBlocked root l → ∃ found,
        ((discover root selection).outcome.run server s).1 = .ok found ∧
        Finds t root l selection found ∧
        ∀ (τ : Type) (other : Server τ) (s' : τ) (same : Selection), t.IsShownBy other s' →
          selection.SameAs same →
            ((discover root same).outcome.run other s').1 = .ok found) := by
  refine ⟨fun hmissing => by rw [run_discover_of_missing hserver hmissing], fun l hroot hl => ?_⟩
  obtain ⟨order, horder, hrun⟩ := run_discover selection hserver hroot hl
  rw [hrun]
  refine ⟨fun hstorable => isBlocked_iff ht hstorable hroot hl,
    fun hrefused => exists_discovered_eq_pattern hrefused _, fun hallowed hblocked => ?_,
    fun hallowed hblocked => ?_⟩
  · have hfind : t.find root = .ok .directory := by
      simp [FileTree.find, hroot, bind, Except.bind, hl]
    exact exists_discovered_eq_walk hallowed (exists_filesAmong_eq_error horder hfind hblocked)
  · obtain ⟨found, hfound, hfinds⟩ := exists_finds_discovered ht hl hallowed hblocked horder
    refine ⟨found, hfound, hfinds, fun τ other s' same hother hsame => ?_⟩
    obtain ⟨order', horder', hrun'⟩ := run_discover same hother hroot hl
    obtain ⟨found', hfound', hfinds'⟩ :=
      exists_finds_discovered ht hl (hsame.isAllowed_congr.mp hallowed) hblocked horder'
    rw [hrun', hfound', (hfinds.congr hsame).unique hfinds']

/-! ## A tree with a directory below its sources -/

/-- A tree with one source, which stands in a directory of its own. -/
def nestedTree : FileTree where
  entries := [(["src"], .directory), (["src", "earlier-interfaces"], .directory),
    (["src", "earlier-interfaces", "a.idl"], .file "protocol A \x7b\x7d".toUTF8 0)]

theorem wellFormed_nestedTree : nestedTree.WellFormed :=
  wellFormed_of_hasRoom (by decide +kernel)

/-- The names of the source of `nestedTree`. -/
def nestedNames : List String := ["earlier-interfaces", "a.idl"]

theorem isFileBelow_nestedNames (root : String) :
    nestedTree.IsFileBelow root ["src"] nestedNames :=
  ⟨rfl, .inl ⟨_, _, rfl⟩⟩

/-- The patterns that count if none are given select the source of `nestedTree`. -/
theorem selects_nestedNames :
    ({} : Selection).IsAllowed ∧ ({} : Selection).Selects (relativePath nestedNames) := by
  have hread : (Glob.readAll defaultIncludes).toOption.map (fun includes =>
      isSelected includes [] (relativePath nestedNames)) = some true := by decide +kernel
  obtain ⟨includes, hincludes, hselected⟩ := Option.map_eq_some_iff.mp hread
  have hincludes : Glob.readAll (Selection.effectiveIncludes {}) = .ok includes :=
    eq_ok_of_toOption hincludes
  refine ⟨⟨Glob.exists_readAll_eq_ok_iff.mp ⟨_, hincludes⟩, by simp⟩, ?_⟩
  exact (isSelected_iff hincludes rfl _).mp hselected

theorem not_isBlocked_nestedTree : ¬ nestedTree.IsBlocked "src" ["src"] := by
  rintro ⟨names, -, hdirectory, hfind⟩
  have hmem := mem_entries_of_entryAt? (by simp) hdirectory
  simp only [nestedTree, List.mem_cons, List.not_mem_nil, or_false, Prod.mk.injEq, reduceCtorEq,
    and_false, and_true] at hmem
  obtain h | h := hmem
  · obtain rfl : names = [] := by simpa using h
    exact hfind .directory rfl
  · obtain rfl : names = ["earlier-interfaces"] := by simpa using h
    exact hfind .directory rfl

/-- The source of `nestedTree` is found. -/
theorem discover_nestedTree : nestedTree.WellFormed ∧ nestedTree.IsShownBy serve nestedTree ∧
    ∃ found, ((discover "src" {}).outcome.run serve nestedTree).1 = .ok found ∧
      relativePath nestedNames ∈ found.map Candidate.relative := by
  have hshown := isShownBy_serve nestedTree
  obtain ⟨found, hfound, hfinds, -⟩ :=
    ((discover_finds nestedTree wellFormed_nestedTree "src" {} serve nestedTree hshown).2 ["src"]
      rfl rfl).2.2.2 selects_nestedNames.1 not_isBlocked_nestedTree
  exact ⟨wellFormed_nestedTree, hshown, found, hfound, (hfinds.mem_iff _).mpr
    ⟨nestedNames, isFileBelow_nestedNames "src", rfl, selects_nestedNames.2⟩⟩

/-- A path with names in front of it that lead nowhere. -/
def dotted : Nat → String → String
  | 0, path => path
  | n + 1, path => "." ++ "/" ++ dotted n path

theorem utf8ByteSize_dotted (n : Nat) (path : String) :
    (dotted n path).utf8ByteSize = 2 * n + path.utf8ByteSize := by
  induction n with
  | zero => simp [dotted]
  | succ n ih =>
    have hdot : ("." ++ "/").utf8ByteSize = 2 := by decide
    rw [dotted, String.utf8ByteSize_append, hdot, ih]
    omega

theorem dotted_ne_empty (n : Nat) {path : String} (h : path ≠ "") : dotted n path ≠ "" := by
  cases n with
  | zero => exact h
  | succ n => simp [dotted]

theorem steps_dotted (n : Nat) {path : String} (h : path ≠ "") :
    Path.steps (dotted n path) = List.replicate n "." ++ Path.steps path := by
  induction n with
  | zero => rfl
  | succ n ih =>
    have hdot : Path.walked "." = ["."] := by decide
    rw [dotted, Path.steps_eq, Path.walked_append_slash, hdot,
      Path.hasFinalSlash_append (dotted_ne_empty n h), List.append_assoc, ← Path.steps_eq, ih,
      List.replicate_succ]
    rfl

theorem followWithin_replicate {purpose : Purpose} {m : Nat} {here : Location} (n : Nat)
    (rest : List String) : t.followWithin purpose m here (List.replicate n "." ++ rest)
      = t.followWithin purpose m here rest := by
  induction n with
  | zero => rfl
  | succ n ih => rw [List.replicate_succ, List.cons_append, followWithin_idle (.inr rfl), ih]

theorem mem_dotted {c : Char} {n : Nat} {path : String} (h : c ∈ (dotted n path).toList) :
    c = '.' ∨ c = '/' ∨ c ∈ path.toList := by
  induction n with
  | zero => exact .inr (.inr h)
  | succ n ih =>
    rw [dotted, String.toList_append, List.mem_append] at h
    obtain h | h := h
    · simp at h
      grind
    · exact ih h

/-- A path leads to the same place with such names in front of it, as long as it is not too
long. -/
theorem locate_dotted {purpose : Purpose} {n : Nat} {path : String}
    (h : t.locate purpose path = .ok l) (hshort : isShort (dotted n path)) :
    t.locate purpose (dotted n path) = .ok l := by
  obtain ⟨hcheck, way, hway⟩ := locate_eq_ok_iff.mp h
  obtain ⟨hne, hnul, -⟩ := checkPath_eq_ok_iff.mp hcheck
  have hcheck' : checkPath (dotted n path) = .ok () := by
    refine checkPath_eq_ok_iff.mpr ⟨dotted_ne_empty n hne, fun hmem => ?_, hshort⟩
    obtain h | h | h := mem_dotted hmem
    · exact absurd h (by decide)
    · exact absurd h (by decide)
    · exact hnul h
  rw [locate, hcheck', steps_dotted n hne]
  exact (followWithin_replicate n _).trans hway.followWithin_eq

/-- A path that leads to the sources of `nestedTree` and can hardly be longer. -/
def longRoot : String := dotted 2040 "src"

theorem locate_longRoot : nestedTree.locate .target longRoot = .ok ["src"] :=
  locate_dotted rfl (decide_eq_true (by rw [utf8ByteSize_dotted]; decide))

theorem not_isShort_longRoot : ¬ isShort (joinAll longRoot ["earlier-interfaces"]) := by
  have hname : ("earlier-interfaces" : String).utf8ByteSize = 18 := by decide
  have hroot : longRoot.utf8ByteSize = 4083 := by
    rw [longRoot, utf8ByteSize_dotted]
    decide
  have hle := Path.le_utf8ByteSize_join (d := longRoot) (p := "earlier-interfaces") (by decide)
  rw [joinAll, List.foldl_cons, List.foldl_nil, isShort, decide_eq_true_eq, maxPathSize]
  omega

/-- A source is not found where the path of its directory is too long. -/
theorem discover_longRoot : nestedTree.WellFormed ∧
    nestedTree.locate .target longRoot = .ok ["src"] ∧
    nestedTree.entryAt? ["src"] = some .directory ∧ ({} : Selection).IsAllowed ∧
    nestedTree.IsFileBelow longRoot ["src"] nestedNames ∧
    ({} : Selection).Selects (relativePath nestedNames) ∧
    ∃ e, ((discover longRoot {}).outcome.run serve nestedTree).1 = .error (.walk e) := by
  refine ⟨wellFormed_nestedTree, locate_longRoot, rfl, selects_nestedNames.1,
    isFileBelow_nestedNames _, selects_nestedNames.2, ?_⟩
  have hblocked : nestedTree.IsBlocked longRoot ["src"] :=
    ⟨["earlier-interfaces"], rfl, rfl, fun entry hfind =>
      not_isShort_longRoot (isShort_of_find hfind)⟩
  obtain ⟨order, horder, hrun⟩ := run_discover {} (isShownBy_serve _) locate_longRoot rfl
  have hfind : nestedTree.find longRoot = .ok .directory := by
    rw [FileTree.find, locate_longRoot]
    rfl
  rw [hrun]
  exact exists_discovered_eq_walk selects_nestedNames.1
    (exists_filesAmong_eq_error horder hfind hblocked)

end Build

end IdlCompiler
