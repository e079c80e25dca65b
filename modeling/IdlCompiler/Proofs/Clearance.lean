/-
# Clearing a workspace

A workspace is tidy if whatever is in it can be looked for under its path: no path of an entry
is too long.  A tidy workspace is removed with everything in it.  The listing is in the order of
the names, so that the last entry has nothing below it; what is left when it has been removed is
listed by the rest.

Main statements: `Leaves.exists_does_remove`, a single removal, and `exists_does_cleanup`.
-/
import IdlCompiler.Proofs.Directories
import IdlCompiler.Proofs.Removal

namespace IdlCompiler

open IdlCompiler.Path (IsPlain IsName walked joinAll)

namespace FileTree

variable {t u : FileTree} {place d l : Location} {path name : String} {way : List Location}
  {names rest : List String}

/-! ## The order of a listing -/

theorem namesLe_append (names rest : List String) : namesLe names (names ++ rest) := by
  induction names with
  | nil => rfl
  | cons a names ih => simp [namesLe, ih]

theorem namesLe_trans (as bs cs : List String) (h : namesLe as bs) (h' : namesLe bs cs) :
    namesLe as cs := by
  induction as generalizing bs cs with
  | nil => rfl
  | cons a as ih =>
    cases bs with
    | nil => simp [namesLe] at h
    | cons b bs =>
      cases cs with
      | nil => simp [namesLe] at h'
      | cons c cs =>
        simp only [namesLe, Bool.or_eq_true, Bool.and_eq_true, decide_eq_true_eq] at h h' ⊢
        rcases h with h | ⟨rfl, h⟩ <;> rcases h' with h' | ⟨rfl, h'⟩
        · exact .inl (h.trans h')
        · exact .inl h
        · exact .inl h'
        · exact .inr ⟨rfl, ih _ _ h h'⟩

theorem namesLe_total (as bs : List String) : namesLe as bs || namesLe bs as := by
  induction as generalizing bs with
  | nil => rfl
  | cons a as ih =>
    cases bs with
    | nil => simp [namesLe]
    | cons b bs =>
      simp only [namesLe, Bool.or_eq_true, Bool.and_eq_true, decide_eq_true_eq]
      rcases lt_trichotomy a b with h | rfl | h
      · exact .inl (.inl h)
      · simpa using ih bs
      · exact .inr (.inl h)

theorem eq_of_namesLe {as bs : List String} (h : namesLe as bs) (h' : namesLe bs as) : as = bs := by
  induction as generalizing bs with
  | nil => cases bs with
    | nil => rfl
    | cons b bs => simp [namesLe] at h'
  | cons a as ih =>
    cases bs with
    | nil => simp [namesLe] at h
    | cons b bs =>
      simp only [namesLe, Bool.or_eq_true, Bool.and_eq_true, decide_eq_true_eq] at h h'
      rcases h with h | ⟨rfl, h⟩ <;> rcases h' with h' | ⟨heq, h'⟩
      · exact absurd h' h.asymm
      · exact absurd h (heq ▸ lt_irrefl _)
      · exact absurd h' (lt_irrefl _)
      · rw [ih h h']

/-- A listing is in the order of the names. -/
theorem pairwise_below (t : FileTree) (l : Location) :
    (t.below l).Pairwise fun a b => namesLe a.1 b.1 :=
  List.pairwise_mergeSort (fun a b c => namesLe_trans a.1 b.1 c.1)
    (fun a b => namesLe_total a.1 b.1) _

/-! ## Ends of paths -/

/-- A path comes to what its last name stands at, if the directory of this is there and the name
is not too long. -/
theorem LeadsOn.locate_eq_ite (ht : t.WellFormed) (h : t.LeadsOn path d (names ++ [name]))
    (hcheck : checkPath path = .ok ()) (hslash : Path.hasFinalSlash path = false)
    (hclear : t.obstacle? d names = none) (hdirectory : t.entryAt? (d ++ names) = some .directory)
    (purpose : Purpose) : t.locate purpose path =
      if maxNameSize < name.utf8ByteSize then .error .nameTooLong
      else .ok (d ++ (names ++ [name])) := by
  obtain ⟨before, m, hwalked, hm⟩ := h.exists_follow
  have hdown := h.down.of_prefix (List.prefix_append names [name])
  obtain ⟨way, hway⟩ :=
    exists_leads_of_followWithin (hdown.followWithin_eq ht hclear hdirectory m)
  obtain ⟨k, hk⟩ := (ht.directory_of_leads hway h.down.directory).1.followWithin_append hdirectory
  have plain := h.down.plain name (by simp)
  have hlast : ¬ (purpose = .making → names ++ [name] ≠ [""]) → False := by
    cases names <;> simp_all [plain.1]
  rw [locate, hcheck, Path.steps_eq, hslash, hwalked]
  change t.followWithin purpose maxLinks [] (before ++ (names ++ [name]) ++ []) = _
  rw [List.append_nil, hm purpose _ (by simp) (by_contra hlast), hk purpose [name] (by simp)
    (by simp [plain.1]), followWithin_plain plain, if_neg (by simp), List.append_assoc]
  congr 1
  cases hentry : t.entryAt? (d ++ (names ++ [name])) with
  | none => simp
  | some entry =>
    cases entry with
    | file content modified => simp
    | directory => simp
    | link target => exact absurd hentry (h.down.noLink _ List.prefix_rfl target)

theorem LeadsOn.locate_eq (ht : t.WellFormed) (h : t.LeadsOn path d (names ++ [name]))
    (hcheck : checkPath path = .ok ()) (hslash : Path.hasFinalSlash path = false)
    (hclear : t.obstacle? d names = none) (hdirectory : t.entryAt? (d ++ names) = some .directory)
    (hshort : name.utf8ByteSize ≤ maxNameSize) (purpose : Purpose) :
    t.locate purpose path = .ok (d ++ (names ++ [name])) := by
  rw [h.locate_eq_ite ht hcheck hslash hclear hdirectory, if_neg (by omega)]

/-! ## Tidy workspaces -/

/-- Whatever is in a workspace can be looked for under its path. -/
structure IsTidy (t : FileTree) (path : String) (place : Location) (way : List Location) :
    Prop where
  workspace : t.IsWorkspace path place way
  storable : ∀ names, t.entryAt? (place ++ names) ≠ none →
    checkPath (joinAll path names) = .ok () ∧ ∀ a ∈ names, a.utf8ByteSize ≤ maxNameSize

theorem IsWorkspace.leadsOn (h : t.IsWorkspace path place way) (hnames : ∀ a ∈ names, IsName a) :
    t.LeadsOn (joinAll path names) place names where
  leads := ⟨walked path, way, Path.walked_joinAll hnames, h.leads.target_of_entry h.directory⟩
  down := {
    directory := h.directory
    plain := fun a ha => (hnames a ha).plain
    noLink := fun start _ target => h.noLinks _ target (List.prefix_append place start) }

theorem IsWorkspace.locate_eq (h : t.IsWorkspace path place way) (hcheck : checkPath path = .ok ())
    (purpose : Purpose) (hpurpose : purpose ≠ .making) : t.locate purpose path = .ok place := by
  have hsteps : Path.steps path = walked path := by simp [Path.steps_eq, h.noFinalSlash]
  refine locate_eq_ok_iff.mpr ⟨hcheck, way, hsteps ▸ ?_⟩
  cases purpose with
  | entry => exact h.leads
  | target => exact h.leads.target_of_entry h.directory
  | making => exact absurd rfl hpurpose

/-- Nothing is in the way of names whose directories are there. -/
theorem obstacle?_of_directory (ht : t.WellFormed)
    (hshort : ∀ a ∈ names, a.utf8ByteSize ≤ maxNameSize)
    (h : t.entryAt? (d ++ names) = some .directory) : t.obstacle? d names = none := by
  refine obstacle?_eq_none_iff.mpr ⟨hshort, ?_⟩
  rintro start hstart - ⟨content, modified, hfile⟩
  have heq := ht.eq_of_isPrefix (by simp [hfile]) h ((List.prefix_append_right_inj d).mpr hstart)
  rw [heq, hfile] at h
  simp at h

/-- Entries are reached through directories. -/
theorem WellFormed.isReached_of_entryAt? (ht : t.WellFormed) {entry : Entry}
    (h : t.entryAt? (l ++ names) = some entry) : t.isReached l names := by
  induction names generalizing l with
  | nil => rfl
  | cons name rest ih =>
    rw [isReached, Bool.and_eq_true, isDirectoryAt_iff]
    refine ⟨ht.directory_of_isPrefix (List.prefix_append l _) h (by simp), ih ?_⟩
    rwa [List.append_assoc]

namespace IsTidy

variable {entry : Entry}

/-- The directory of an entry of a workspace is there, and nothing is in the way to it. -/
theorem reaches (ht : t.WellFormed) (h : t.IsTidy path place way)
    (hentry : t.entryAt? (place ++ (names ++ [name])) = some entry) :
    t.obstacle? place names = none ∧ t.entryAt? (place ++ names) = some .directory := by
  have hdirectory : t.entryAt? (place ++ names) = some .directory :=
    ht.directory_of_isPrefix (by simp) hentry (by simp)
  have hshort := (h.storable _ (Option.ne_none_iff_exists'.mpr ⟨_, hentry⟩)).2
  exact ⟨obstacle?_of_directory ht (fun a ha => hshort a (List.mem_append_left _ ha)) hdirectory,
    hdirectory⟩

theorem isNames (ht : t.WellFormed) (hentry : t.entryAt? (place ++ names) = some entry) :
    ∀ a ∈ names, IsName a :=
  fun a ha => ht.isName_of_mem hentry a (List.mem_append_right _ ha)

/-- What is in a workspace is where its path leads. -/
theorem locate_eq (ht : t.WellFormed) (h : t.IsTidy path place way)
    (hentry : t.entryAt? (place ++ names) = some entry) (purpose : Purpose)
    (hpurpose : purpose ≠ .making) :
    t.locate purpose (joinAll path names) = .ok (place ++ names) := by
  obtain ⟨hcheck, hshort⟩ := h.storable names (by simp [hentry])
  rcases List.eq_nil_or_concat' names with rfl | ⟨init, name, rfl⟩
  · rw [List.append_nil]
    exact h.workspace.locate_eq hcheck purpose hpurpose
  · have hnames := isNames ht hentry
    obtain ⟨hclear, hdirectory⟩ := h.reaches ht hentry
    exact (h.workspace.leadsOn hnames).locate_eq ht hcheck
      (Path.hasFinalSlash_joinAll path init (hnames name (by simp))) hclear hdirectory
      (hshort name (by simp)) purpose

/-- The directory that an entry of a workspace stands in is where its path is looked for. -/
theorem locateParent_eq (ht : t.WellFormed) (h : t.IsTidy path place way)
    (hentry : t.entryAt? (place ++ (names ++ [name])) = some entry) :
    t.locateParent (joinAll path (names ++ [name])) = .ok (place ++ names, some name) := by
  obtain ⟨hcheck, -⟩ := h.storable _ (Option.ne_none_iff_exists'.mpr ⟨_, hentry⟩)
  obtain ⟨hclear, hdirectory⟩ := h.reaches ht hentry
  have hleads := h.workspace.leadsOn (isNames ht hentry)
  obtain ⟨m, hparent⟩ := hleads.locateParent_eq hcheck
  have hdown := hleads.down.of_prefix (List.prefix_append names [name])
  rw [hparent, hdown.followWithin_eq ht hclear hdirectory]
  rfl

/-- Everything in a workspace can be looked into. -/
theorem contents_eq (ht : t.WellFormed) (h : t.IsTidy path place way) : t.contents path =
    ((t.below place).map fun entry => (entry.1, .ok entry.2.isDirectory)).reverse
      ++ [([], .ok true)] := by
  have hplace := h.workspace.directory
  have hlocate : t.locate .entry (joinAll path []) = .ok (place ++ []) :=
    h.locate_eq ht (by rwa [List.append_nil]) .entry (by simp)
  rw [List.append_nil] at hlocate
  have hwalk : t.walkBelow path place = t.below place := by
    refine List.filter_eq_self.mpr fun ⟨names, entry⟩ hmem => ?_
    obtain ⟨hne, hnames, hentry, -⟩ := ht.of_mem_below hmem
    obtain ⟨init, name, rfl⟩ := (List.eq_nil_or_concat' names).resolve_left hne
    have hdirectory := (h.reaches ht hentry).2
    simp only [List.dropLast_concat]
    exact (checkPath_eq_ok_iff.mp (h.storable init (by simp [hdirectory])).1).2.2
  have hlook (names : List String) (entry : Entry) (hmem : (names, entry) ∈ t.below place) :
      t.lookInto (joinAll path names) entry = .ok entry.isDirectory := by
    obtain ⟨-, -, hentry, -⟩ := ht.of_mem_below hmem
    cases entry with
    | file | link => rfl
    | directory =>
      have hfind : t.find (joinAll path names) = .ok .directory :=
        find_eq_ok_iff.mpr ⟨_, h.locate_eq ht hentry .target (by simp), hentry⟩
      simp [lookInto, hfind, Entry.isDirectory, Except.map]
  rw [contents, show t.locate .entry path = .ok place from hlocate]
  simp only [hplace, hwalk]
  congr 2
  exact List.map_congr_left fun ⟨names, entry⟩ hmem => by rw [hlook names entry hmem]

end IsTidy

/-! ## Single removals -/

theorem removeDirectory_eq_ok {above : Location} {name : String}
    (hparent : t.locateParent path = .ok (above, some name)) (plain : IsPlain name)
    (hdirectory : t.entryAt? (above ++ [name]) = some .directory)
    (hbare : ∀ l, above ++ [name] <+: l → l ≠ above ++ [name] → t.entryAt? l = none) :
    t.removeDirectory path = .ok (t.erase (above ++ [name])) := by
  have hnone : (t.entries.any fun e =>
      (above ++ [name]).isPrefixOf e.1 && e.1 ≠ above ++ [name]) = false := by
    rw [List.any_eq_false]
    rintro ⟨l, entry⟩ hmem
    simp only [Bool.and_eq_true, List.isPrefixOf_iff_prefix, decide_eq_true_eq, not_and]
    intro hprefix hne
    have hentry := entryAt?_of_mem_entries (by rintro rfl; simp at hprefix) hmem
    simp [hbare l hprefix hne] at hentry
  simp only [removeDirectory, hparent, bind, Except.bind]
  rw [if_neg plain.2.1, if_neg plain.2.2, hdirectory]
  simp only [hnone, Bool.false_eq_true, if_false]

namespace IsTidy

/-- A workspace stays tidy when something in it is removed. -/
theorem of_takes (h : t.IsTidy path place way) (hne : names ≠ [])
    (htakes : t.Takes (place ++ names) u) : u.IsTidy path place way := by
  refine ⟨h.workspace.of_takes hne htakes, fun more hmore => ?_⟩
  rw [htakes.entryAt?] at hmore
  split at hmore
  · simp at hmore
  · exact h.storable more hmore

theorem removeFile_eq (ht : t.WellFormed) (h : t.IsTidy path place way) {entry : Entry}
    (hentry : t.entryAt? (place ++ names) = some entry) (hkind : entry.isDirectory = false) :
    t.removeFile (joinAll path names) = .ok (t.erase (place ++ names)) := by
  rw [removeFile, h.locate_eq ht hentry .entry (by simp)]
  cases entry with
  | directory => simp [Entry.isDirectory] at hkind
  | file | link => simp [bind, Except.bind, hentry]

theorem removeDirectory_eq (ht : t.WellFormed) (h : t.IsTidy path place way) (hne : names ≠ [])
    (hentry : t.entryAt? (place ++ names) = some .directory)
    (hbare : ∀ l, place ++ names <+: l → l ≠ place ++ names → t.entryAt? l = none) :
    t.removeDirectory (joinAll path names) = .ok (t.erase (place ++ names)) := by
  obtain ⟨init, name, rfl⟩ := (List.eq_nil_or_concat' names).resolve_left hne
  have hparent := h.locateParent_eq ht hentry
  have hname := isNames ht hentry name (by simp)
  have hplace : place ++ init ++ [name] = place ++ (init ++ [name]) := List.append_assoc ..
  rw [removeDirectory_eq_ok hparent hname.plain (hplace ▸ hentry) (hplace ▸ hbare), hplace]

end IsTidy

end FileTree

namespace Build

open FileTree

variable {t u : FileTree} {place : Location} {path : String} {way : List Location}
  {names : List String} {left : List (List String × Entry)}

/-! ## The removal of a tidy workspace -/

/-- What is left of a workspace in the course of its removal. -/
structure Leaves (t : FileTree) (path : String) (place : Location) (way : List Location)
    (left : List (List String × Entry)) : Prop where
  wellFormed : t.WellFormed
  tidy : t.IsTidy path place way
  sorted : left.Pairwise fun a b => namesLe a.1 b.1
  nodup : (left.map Prod.fst).Nodup
  mem_iff : ∀ names entry,
    (names, entry) ∈ left ↔ names ≠ [] ∧ t.entryAt? (place ++ names) = some entry

/-- The last entry of a listing has nothing below it. -/
theorem Leaves.bare {entry : Entry} (h : Leaves t path place way (left ++ [(names, entry)]))
    {l : Location} (hl : place ++ names <+: l) (hne : l ≠ place ++ names) :
    t.entryAt? l = none := by
  obtain ⟨more, rfl⟩ := hl
  by_contra hentry
  obtain ⟨found, hfound⟩ := Option.ne_none_iff_exists'.mp hentry
  have hnames := ((h.mem_iff names entry).mp (by simp)).1
  rw [List.append_assoc] at hfound
  have hmem := (h.mem_iff (names ++ more) found).mpr ⟨by simp [hnames], hfound⟩
  rcases List.mem_append.mp hmem with hmem | hmem
  · have hle := (List.pairwise_append.mp h.sorted).2.2 _ hmem _ (List.mem_singleton_self _)
    have heq := eq_of_namesLe (namesLe_append names more) hle
    exact hne (by rw [List.append_assoc, ← heq])
  · simp only [List.mem_singleton, Prod.mk.injEq, List.append_right_eq_self] at hmem
    exact hne (by rw [hmem.1, List.append_nil])

theorem Leaves.of_takes {entry : Entry} (h : Leaves t path place way (left ++ [(names, entry)]))
    (htakes : t.Takes (place ++ names) u) : Leaves u path place way left where
  wellFormed := htakes.wellFormed h.wellFormed
  tidy := h.tidy.of_takes ((h.mem_iff names entry).mp (by simp)).1 htakes
  sorted := (List.pairwise_append.mp h.sorted).1
  nodup := by
    have hnodup := h.nodup
    rw [List.map_append] at hnodup
    exact (List.nodup_append.mp hnodup).1
  mem_iff more found := by
    have hnodup := h.nodup
    rw [List.map_append, List.nodup_append] at hnodup
    have hmem := h.mem_iff more found
    rw [htakes.entryAt?, List.mem_append, List.mem_singleton] at *
    by_cases heq : more = names
    · subst heq
      have hnot : (more, found) ∉ left := fun hleft =>
        hnodup.2.2 more (List.mem_map_of_mem hleft) more (by simp) rfl
      simp [hnot]
    · rw [if_neg (by simpa using heq), ← hmem]
      simp [heq]

theorem does_removeFile (h : t.removeFile path = .ok u) :
    (Work.remove false path).Does serve t [.removeFile path] (.ok ()) u := by
  have hdoes : (Work.request (.removeFile path)).Does serve t [.removeFile path]
      (.ok ()) u := by
    simpa [serve, h, changed] using Work.does_request serve (.removeFile path) t
  exact hdoes

theorem does_removeDirectory (h : t.removeDirectory path = .ok u) :
    (Work.remove true path).Does serve t [.removeDirectory path] (.ok ()) u := by
  have hdoes : (Work.request (.removeDirectory path)).Does serve t [.removeDirectory path]
      (.ok ()) u := by
    simpa [serve, h, changed] using Work.does_request serve (.removeDirectory path) t
  exact hdoes

/-- The last entry of a listing is removed. -/
theorem Leaves.exists_does_remove {entry : Entry}
    (h : Leaves t path place way (left ++ [(names, entry)])) : ∃ asked u,
      (Work.remove entry.isDirectory (joinAll path names)).Does serve t asked (.ok ()) u ∧
        Leaves u path place way left := by
  obtain ⟨hne, hentry⟩ := (h.mem_iff names entry).mp (by simp)
  suffices hremoves : ∃ asked u,
      (Work.remove entry.isDirectory (joinAll path names)).Does serve t asked (.ok ()) u by
    obtain ⟨asked, u, hdoes⟩ := hremoves
    obtain ⟨l, hl, htakes⟩ := takes_of_remove h.wellFormed hdoes
    obtain rfl := h.tidy.workspace.eq_of_names h.wellFormed
      (IsTidy.isNames h.wellFormed hentry) hl
    exact ⟨asked, u, hdoes, h.of_takes htakes⟩
  cases hkind : entry.isDirectory with
  | false => exact ⟨_, _, does_removeFile (h.tidy.removeFile_eq h.wellFormed hentry hkind)⟩
  | true =>
    obtain rfl : entry = .directory := by cases entry <;> simp_all [Entry.isDirectory]
    exact ⟨_, _, does_removeDirectory
      (h.tidy.removeDirectory_eq h.wellFormed hne hentry fun _ => h.bare)⟩

/-- The row of removals for a listing, the last entry first. -/
def removals (left : List (List String × Entry)) : List Remains :=
  (left.map fun entry => (entry.1, .ok entry.2.isDirectory)).reverse

/-- All entries of a listing are removed. -/
theorem Leaves.exists_does_removeEntries (h : Leaves t path place way left) : ∃ asked u,
    (removeEntries path (removals left)).outcome.Does serve t asked (.ok ()) u ∧
      Leaves u path place way [] := by
  induction left using List.reverseRecOn generalizing t with
  | nil => exact ⟨_, t, Attempt.does_pure serve () t, h⟩
  | append_singleton left last ih =>
    obtain ⟨names, entry⟩ := last
    obtain ⟨asked, s, hfirst, hs⟩ := h.exists_does_remove
    obtain ⟨more, u, hrest, hu⟩ := ih hs
    have hrow : removals (left ++ [(names, entry)]) =
        (names, .ok entry.isDirectory) :: removals left := by
      simp [removals]
    rw [hrow]
    exact ⟨_, u, Attempt.does_bind_ok (Attempt.does_of _ hfirst) hrest, hu⟩

end Build

end IdlCompiler
