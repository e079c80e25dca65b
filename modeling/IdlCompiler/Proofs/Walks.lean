/-
# What is below a place

A walk comes upon the entries below a place, each by the names that lead to it.  Main
statement: `WellFormed.of_mem_below`, these are names of entries, and they lead there through
directories.
-/
import IdlCompiler.FileTree.Walk
import IdlCompiler.Proofs.Workspaces

namespace IdlCompiler.FileTree

open IdlCompiler.Path (IsPlain IsName walked)

variable {t u : FileTree} {l m : Location} {entry : Entry} {names : List String}

theorem entryAt?_of_mem_entries (hm : m ≠ []) (h : (m, entry) ∈ t.entries) :
    t.entryAt? m = some entry := by
  rw [entryAt?, if_neg hm, Option.map_eq_some_iff]
  cases hfind : t.entries.find? fun e => e.1 = m with
  | none => simpa using List.find?_eq_none.mp hfind _ h
  | some found =>
    have hkey : found.1 = m := by simpa using List.find?_some hfind
    have heq := List.inj_on_of_nodup_map t.distinct (List.mem_of_find?_eq_some hfind) h hkey
    exact ⟨_, rfl, by rw [heq]⟩

theorem WellFormed.isName_of_mem (ht : t.WellFormed) (h : t.entryAt? l = some entry) :
    ∀ a ∈ l, IsName a := by
  induction l using List.reverseRecOn generalizing entry with
  | nil => simp
  | append_singleton d name ih =>
    intro a ha
    rcases List.mem_append.mp ha with ha | ha
    · exact ih (ht.parent _ _ _ h) a ha
    · rw [List.mem_singleton.mp ha]
      exact ht.isName _ _ _ h

/-- What a walk comes upon: the entries that directories lead to. -/
theorem mem_below_iff : (names, entry) ∈ t.below l ↔
    names ≠ [] ∧ t.entryAt? (l ++ names) = some entry ∧ t.isReached l names := by
  simp only [below, List.mem_mergeSort, List.mem_filterMap, Option.ite_none_right_eq_some,
    Option.some.injEq, Prod.mk.injEq, Bool.and_eq_true, List.isPrefixOf_iff_prefix,
    decide_eq_true_eq]
  constructor
  · rintro ⟨⟨m, _⟩, hmem, ⟨⟨⟨rest, rfl⟩, hlength⟩, hreached⟩, rfl, rfl⟩
    rw [List.drop_left] at hreached ⊢
    have hne : rest ≠ [] := by simpa using hlength
    exact ⟨hne, entryAt?_of_mem_entries (by simp [hne]) hmem, hreached⟩
  · rintro ⟨hne, hentry, hreached⟩
    refine ⟨(l ++ names, entry), mem_entries_of_entryAt? (by simp [hne]) hentry, ?_⟩
    simp [hne, hreached]

/-- A walk comes upon every entry once. -/
theorem nodup_below (t : FileTree) (l : Location) : ((t.below l).map Prod.fst).Nodup := by
  rw [below, ((List.mergeSort_perm _ _).map Prod.fst).nodup_iff, List.nodup_iff_pairwise_ne,
    List.pairwise_map]
  refine List.Pairwise.filterMap _ ?_ (List.pairwise_map.mp t.distinct)
  rintro ⟨m, _⟩ ⟨m', _⟩ hne ⟨a, _⟩ ha ⟨a', _⟩ ha' rfl
  simp only [Option.ite_none_right_eq_some, Option.some.injEq, Prod.mk.injEq,
    Bool.and_eq_true, List.isPrefixOf_iff_prefix] at ha ha'
  obtain ⟨⟨⟨⟨rest, rfl⟩, -⟩, -⟩, rfl, -⟩ := ha
  obtain ⟨⟨⟨⟨rest', rfl⟩, -⟩, -⟩, heq, -⟩ := ha'
  simp_all

theorem WellFormed.of_mem_below (ht : t.WellFormed) (h : (names, entry) ∈ t.below l) :
    names ≠ [] ∧ (∀ a ∈ names, IsName a) ∧ t.entryAt? (l ++ names) = some entry ∧
      t.isReached l names := by
  obtain ⟨hne, hentry, hreached⟩ := mem_below_iff.mp h
  exact ⟨hne, fun a ha => ht.isName_of_mem hentry a (List.mem_append_right _ ha), hentry, hreached⟩

/-! ## Files that a walk comes upon -/

@[simp] theorem isWalkedFile_file {path : String} {content : ByteArray} {modified : Nat} :
    t.isWalkedFile path (.file content modified) = .ok true := rfl

@[simp] theorem isWalkedFile_link {path target : String} :
    t.isWalkedFile path (.link target) = .ok (t.isFile path) := rfl

@[simp] theorem isWalkedFile_directory {path : String} : t.isWalkedFile path .directory =
    ((t.find path).map fun _ => false).mapError (⟨path, ·⟩) := by
  cases h : t.find path <;> simp [isWalkedFile, lookInto, Entry.isDirectory, h] <;> rfl

/-! ## Paths that go on -/

theorem checkPath_eq_ok_iff {path : String} :
    checkPath path = .ok () ↔ path ≠ "" ∧ '\x00' ∉ path.toList ∧ isShort path := by
  unfold checkPath
  split_ifs <;> simp_all

/-- Only the empty path is missing for what it is. -/
theorem checkPath_eq_notFound_iff {path : String} :
    checkPath path = .error .notFound ↔ path = "" := by
  unfold checkPath
  split_ifs <;> simp_all

/-- Names that lead to a file or a directory through directories are followed, unless one of them is
too long. -/
theorem followWithin_of_isReached {n : Nat} {here : Location} (hplain : ∀ a ∈ names, IsPlain a)
    (hreached : t.isReached here names)
    (hend : t.IsFileAt (here ++ names) ∨ t.entryAt? (here ++ names) = some .directory) :
    t.followWithin .target n here names =
      if ∀ a ∈ names, a.utf8ByteSize ≤ maxNameSize then .ok (here ++ names)
      else .error .nameTooLong := by
  induction names generalizing here with
  | nil => simp
  | cons name rest ih =>
    obtain ⟨plain, hplain⟩ := List.forall_mem_cons.mp hplain
    rw [followWithin_plain plain, if_neg (by simp)]
    by_cases short : name.utf8ByteSize ≤ maxNameSize
    · rw [if_neg (by omega)]
      simp only [List.forall_mem_cons, short, true_and]
      cases rest with
      | nil => obtain ⟨content, modified, hentry⟩ | hentry := hend <;> simp [hentry]
      | cons next rest =>
        obtain ⟨-, hreached⟩ := Bool.and_eq_true_iff.mp hreached
        rw [isDirectoryAt_iff.mp (Bool.and_eq_true_iff.mp hreached).1]
        have hnames : here ++ name :: next :: rest = here ++ [name] ++ next :: rest :=
          List.append_cons ..
        rw [hnames] at hend ⊢
        exact ih hplain hreached hend
    · rw [if_pos (by omega), if_neg fun h => short (h name List.mem_cons_self)]

/-- The path of a directory goes on along names that lead to a file or a directory, or fails because
it cannot be passed on or one of the names is too long. -/
theorem WellFormed.locate_joinAll_eq (ht : t.WellFormed) {root : String}
    (hroot : t.locate .target root = .ok l) (hl : t.entryAt? l = some .directory) (hne : names ≠ [])
    (hnames : ∀ a ∈ names, IsName a) (hreached : t.isReached l names)
    (hend : t.IsFileAt (l ++ names) ∨ t.entryAt? (l ++ names) = some .directory) :
    t.locate .target (Path.joinAll root names) = (do
      checkPath (Path.joinAll root names)
      if ∀ a ∈ names, a.utf8ByteSize ≤ maxNameSize then .ok (l ++ names)
      else .error .nameTooLong) := by
  obtain ⟨-, way, hway⟩ := locate_eq_ok_iff.mp hroot
  obtain ⟨n, hn⟩ := (ht.leads_walked hway).followWithin_append hl
  rw [locate, Path.steps_joinAll hne hnames, resolve, hn .target names hne (by simp),
    followWithin_of_isReached (fun a ha => (hnames a ha).plain) hreached hend]

theorem WellFormed.locate_joinAll (ht : t.WellFormed) {root : String}
    (hroot : t.locate .target root = .ok l) (hl : t.entryAt? l = some .directory) (hne : names ≠ [])
    (hnames : ∀ a ∈ names, IsName a) (hshort : ∀ a ∈ names, a.utf8ByteSize ≤ maxNameSize)
    (hcheck : checkPath (Path.joinAll root names) = .ok ()) (hreached : t.isReached l names)
    (hend : t.IsFileAt (l ++ names) ∨ t.entryAt? (l ++ names) = some .directory) :
    t.locate .target (Path.joinAll root names) = .ok (l ++ names) := by
  rw [ht.locate_joinAll_eq hroot hl hne hnames hreached hend, hcheck, if_pos hshort]
  rfl

end IdlCompiler.FileTree
