/-
# Steps of a run on a shared tree

A run that shares a tree goes in step with the same run on a tree of its own.  Each of its
requests is answered on both trees in the same way, up to the number of its directory, and what
is compared of the trees is the same afterwards; the other run is not touched.

Main statements: `Shares.makeDirectories`, `Shares.makeFresh`, `Shares.readText_output` and
`Shares.writeFile_output`, `Shares.makeDirectories_run` and `Shares.writeFile_run`, and
`Shares.remove` and `Shares.remove_self`.
-/
import IdlCompiler.Proofs.Grounds

namespace IdlCompiler

open IdlCompiler.Path (IsPlain IsName walked joinAll)

namespace FileTree

open Ground

variable {g : Ground} {t t' u u' : FileTree} {d l : Location} {φ ψ : Option (Nat × Nat)}
  {n m k : Nat} {path source output output' : String} {names : List String}

/-! ## Directories on the ways of a run -/

theorem Ground.Moves.refl (φ : Option (Nat × Nat)) (u : FileTree) : g.Moves φ φ u u where
  kept _ _ _ := .inl rfl
  runs _ _ _ _ _ := rfl

namespace Ground

theorem IsAlike.congr (h : g.IsAlike t u l) (ht : t'.entryAt? l = t.entryAt? l)
    (hu : u'.entryAt? l = u.entryAt? l) : g.IsAlike t' u' l := by
  simpa only [IsAlike, IsNewDirectory, contentAt?, ht, hu] using h

theorem IsAlike.isFileAt_iff (h : g.IsAlike t u l) : t.IsFileAt l ↔ u.IsFileAt l := by
  rcases h with heq | ⟨⟨hnone, hdirectory⟩, -⟩
  · simp only [isFileAt_iff_contentAt?, heq]
  · simp [IsFileAt, hnone, hdirectory]

theorem IsAlike.directory (h : g.IsAlike t u l) (hl : t.entryAt? l = some .directory) :
    u.entryAt? l = some .directory := by
  rcases h with heq | ⟨⟨hnone, -⟩, -⟩
  · rw [← contentAt?_eq_directory_iff, heq, contentAt?_eq_directory_iff, hl]
  · simp [hnone] at hl

/-- Names lead over places that a run makes directories at. -/
structure Paths (g : Ground) (d : Location) (names : List String) : Prop where
  not_inRun : ∀ start, start <+: names → ¬ g.InRun (d ++ start)
  not_isOther : ∀ start, start <+: names → ¬ g.IsOther (d ++ start)
  onWay : ∀ start, start <+: names →
    g.IsOwn (d ++ start) ∨ d ++ start <+: g.root ∨ d ++ start <+: g.own

/-- Directories that are made along the names of a run are moves of it. -/
theorem Paths.moves (h : g.Paths d names) (hpaves : t.Paves d names t') :
    g.Moves none none t t' where
  kept l hrun hown := by
    by_cases hmade : ∃ start, start <+: names ∧ t.obstacle? d start = none ∧
        t.entryAt? l = none ∧ l = d ++ start
    · obtain ⟨start, hstart, hclear, hnone, rfl⟩ := hmade
      exact .inr ⟨⟨hnone, hpaves.made start hstart hclear⟩,
        (h.onWay start hstart).resolve_left hown⟩
    · push Not at hmade
      exact .inl (hpaves.kept l hmade)
  runs k _ _ l hl :=
    hpaves.kept l fun start hstart _ _ heq => h.not_inRun start hstart ⟨k, heq ▸ hl⟩

/-- The same is in the way of the names of a run on both trees. -/
theorem Shares.obstacle?_eq (h : g.Shares φ ψ t u) (hpaths : g.Paths d names) {start : List String}
    (hstart : start <+: names) : t.obstacle? d start = u.obstacle? d start :=
  obstacle?_congr fun s hs _ => (h.alike _ (hpaths.not_inRun s (hs.trans hstart))
    (hpaths.not_isOther s (hs.trans hstart))).isFileAt_iff

/-- **Directories are made on both trees in the same way along the names of a run.** -/
theorem Shares.makeDirectories (h : g.Shares φ ψ t u) (hleads : g.start.LeadsOn path d names)
    (hpaths : g.Paths d names) :
    (u.makeDirectories path).1 = (t.makeDirectories path).1 ∧
      g.Shares φ ψ (t.makeDirectories path).2 (u.makeDirectories path).2 ∧
      g.Moves φ φ u (u.makeDirectories path).2 := by
  by_cases hempty : path = ""
  · rw [FileTree.makeDirectories, FileTree.makeDirectories, if_pos hempty, if_pos hempty]
    exact ⟨rfl, h, .refl φ u⟩
  cases hcheck : checkPath path with
  | error e =>
    rw [makeDirectories_of_checkPath hempty hcheck, makeDirectories_of_checkPath hempty hcheck]
    exact ⟨rfl, h, .refl φ u⟩
  | ok =>
    have hgrows := makeDirectories_grows h.alone.wellFormed path
    have hgrows' := makeDirectories_grows h.shared.wellFormed path
    obtain ⟨t', hmade, hpaves⟩ :=
      (h.alone.leadsOn hleads).makeDirectories_eq h.alone.wellFormed fun _ => hcheck
    obtain ⟨u', hmade', hpaves'⟩ :=
      (h.shared.leadsOn hleads).makeDirectories_eq h.shared.wellFormed fun _ => hcheck
    rw [hmade] at hgrows ⊢
    rw [hmade'] at hgrows' ⊢
    refine ⟨by rw [h.obstacle?_eq hpaths List.prefix_rfl], ?_, (hpaths.moves hpaves').of_none⟩
    refine h.outside hgrows hgrows' (hpaths.moves hpaves) (hpaths.moves hpaves')
      fun l hrun hother => ?_
    by_cases hl : ∃ start, start <+: names ∧ t.obstacle? d start = none ∧ l = d ++ start
    · obtain ⟨start, hstart, hclear, rfl⟩ := hl
      have hdirectory := hpaves.made start hstart hclear
      have hdirectory' := hpaves'.made start hstart (h.obstacle?_eq hpaths hstart ▸ hclear)
      exact .inl (contentAt?_eq_of_entryAt?_eq (hdirectory'.trans hdirectory.symm))
    · push Not at hl
      refine (h.alike l hrun hother).congr
        (hpaves.kept l fun start hstart hclear _ => hl start hstart hclear)
        (hpaves'.kept l fun start hstart hclear _ => hl start hstart ?_)
      rw [h.obstacle?_eq hpaths hstart, hclear]

/-! ## The directory of runs -/

theorem not_isOther_of_isPrefix_root (hl : l <+: g.root) : ¬ g.IsOther l :=
  fun h => h.not_above hl

/-- The directory of runs is there. -/
structure HasRoot (g : Ground) (t : FileTree) : Prop where
  directory : t.entryAt? g.root = some .directory
  short : ∀ a ∈ g.rootNames, a.utf8ByteSize ≤ maxNameSize

theorem HasRoot.of_shares (h : g.HasRoot t) (hshares : g.Shares φ ψ t u) : g.HasRoot u where
  directory := (hshares.alike _ (not_inRun_of_isPrefix_root List.prefix_rfl)
    (not_isOther_of_isPrefix_root List.prefix_rfl)).directory h.directory
  short := h.short

/-- Where fresh directories are made. -/
theorem HasRoot.resolve_eq (h : g.HasRoot t) (ht : t.WellFormed)
    (hleads : t.LeadsOn g.rootPath g.rootStart g.rootNames) :
    t.resolve .target (Path.steps g.rootPath ++ [""]) = .ok g.root := by
  have hdirectory : t.entryAt? (g.rootStart ++ g.rootNames) = some .directory := h.directory
  obtain ⟨before, m, hwalked, hm⟩ := hleads.exists_follow
  have hclear := obstacle?_of_directory ht h.short hdirectory
  have hfollow := (hm .target (g.rootNames ++ [""]) (by simp) (by simp)).trans
    (hleads.down.followWithin_eq ht hclear hdirectory m)
  obtain ⟨way, hway⟩ := exists_leads_of_followWithin hfollow
  rw [Path.steps_eq, hwalked, resolve]
  split
  · obtain ⟨k, hk⟩ := hway.followWithin_append hdirectory
    have hend := hk .target [""] (by simp) (by simp)
    rw [followWithin_empty] at hend
    simpa [Ground.root] using hend
  · simpa [Ground.root] using hfollow

end Ground

/-- A fresh directory has the first of the names that is free. -/
theorem makeFresh_eq {root : String} (hroot : t.resolve .target (Path.steps root ++ [""]) = .ok d)
    (hnone : t.entryAt? (runPlace d n) = none) (htaken : ∀ k < n, t.entryAt? (runPlace d k) ≠ none)
    (hn : n < 10 ^ 6) : t.makeFresh root = (checkPath (Path.join root (freshName n))).map fun _ =>
      (Path.join root (freshName n), t.put (runPlace d n) .directory) := by
  have hfind := find?_freshName_eq_some_iff.mpr
    ⟨n, Nat.lt_succ_of_le (le_length_entries htaken), rfl, hnone, htaken⟩
  have hshort : ¬ maxNameSize < (freshName n).utf8ByteSize := by
    rw [utf8ByteSize_freshName hn]
    decide
  rw [FileTree.makeFresh, hroot]
  simp only [bind, Except.bind, hfind, if_neg hshort]
  cases checkPath (Path.join root (freshName n)) <;> rfl

/-- If one of the first million numbers is free there is a first one. -/
theorem exists_first_free (hk : k < 10 ^ 6) (hnone : t.entryAt? (runPlace d k) = none) :
    ∃ n < 10 ^ 6, t.entryAt? (runPlace d n) = none ∧
      ∀ j < n, t.entryAt? (runPlace d j) ≠ none := by
  classical
  have hfree : ∃ k, t.entryAt? (runPlace d k) = none := ⟨k, hnone⟩
  exact ⟨Nat.find hfree, (Nat.find_min' hfree hnone).trans_lt hk, Nat.find_spec hfree,
    fun _ => Nat.find_min hfree⟩

/-- Nothing is below a directory that has just been made. -/
theorem WellFormed.entryAt?_put_directory (ht : t.WellFormed) (hl : l ≠ [])
    (hnone : t.entryAt? l = none) (names : List String) :
    (t.put l .directory).entryAt? (l ++ names) = if names = [] then some .directory else none := by
  rw [entryAt?_put t hl]
  by_cases hnames : names = []
  · simp [hnames]
  · rw [if_neg (by simpa using hnames), if_neg hnames, ht.entryAt?_append_of_none hnone]

namespace Ground

/-- The directories of a run are opened on both trees. -/
theorem Shares.opens (h : g.Shares none ψ t u) (hstart : g.start.WellFormed) (hroot : g.HasRoot t)
    (hn : n < 10 ^ 6) (hm : m < 10 ^ 6) (hnone : t.entryAt? (runPlace g.root n) = none)
    (hnone' : u.entryAt? (runPlace g.root m) = none) (hcheck : checkPath (g.runPath n) = .ok ()) :
    g.Shares (some (n, m)) ψ (t.put (runPlace g.root n) .directory)
        (u.put (runPlace g.root m) .directory) ∧
      g.Moves none (some (n, m)) u (u.put (runPlace g.root m) .directory) := by
  have hne (k : Nat) : runPlace g.root k ≠ [] := by simp [runPlace]
  have hroom {v : FileTree} (hv : g.HasRoot v) (k : Nat) : v.HasRoom (runPlace g.root k) :=
    ⟨g.root, freshName k, rfl, isName_freshName k, hv.directory⟩
  have hadds : t.Adds (runPlace g.root n) _ := .directory (hroom hroot n) hnone
  have hadds' : u.Adds (runPlace g.root m) _ := .directory (hroom (hroot.of_shares h) m) hnone'
  have hψ (n' : Nat) : ψ ≠ some (n', m) := fun heq => by simpa [hnone'] using h.present n' m heq
  have hvacant := (h.alone_runs n (by simp) _ List.prefix_rfl).symm.trans hnone
  have hvacant' := (h.shared_runs m (by simp) hψ _ List.prefix_rfl).symm.trans hnone'
  have hbelow := h.alone.wellFormed.entryAt?_put_directory (hne n) hnone
  have hbelow' := h.shared.wellFormed.entryAt?_put_directory (hne m) hnone'
  refine h.in_run hstart (.single ⟨_, .inl hadds⟩) (.single ⟨_, .inl hadds'⟩)
    (fun l hl => hadds.entryAt?_of_ne fun heq => hl (heq ▸ List.prefix_rfl))
    (fun l hl => hadds'.entryAt?_of_ne fun heq => hl (heq ▸ List.prefix_rfl)) hvacant hvacant'
    (.inl rfl) (.inr rfl) hψ (fun _ => ?_) (by simp)
  refine ⟨hvacant, hvacant', hn, hm, hroot.short, ?_, .of_entryAt?_eq fun names => ?_,
    fun names hentry => ?_⟩
  · simpa using hbelow []
  · rw [hbelow, hbelow']
  · rw [hbelow] at hentry
    obtain rfl : names = [] := by simpa using hentry
    exact ⟨hcheck, by simp⟩

/-- **A run finds a directory on the shared tree if it finds one alone.** -/
theorem Shares.makeFresh (h : g.Shares none ψ t u) (hg : g.Hosts source output output')
    (hroot : g.HasRoot t) :
    (∃ e, t.makeFresh g.rootPath = .error e ∧ u.makeFresh g.rootPath = .error e) ∨
    ∃ n m t' u', t.makeFresh g.rootPath = .ok (g.runPath n, t') ∧
      u.makeFresh g.rootPath = .ok (g.runPath m, u') ∧
      g.Shares (some (n, m)) ψ t' u' ∧ g.Moves none (some (n, m)) u u' := by
  obtain ⟨k, k', hne, ⟨hk, hfree⟩, ⟨hk', hfree'⟩⟩ := hg.room
  obtain ⟨n, hn, hnone, htaken⟩ :=
    exists_first_free hk ((h.alone_runs k (by simp) _ List.prefix_rfl).trans hfree)
  -- The other run has taken no more than one of the two free numbers.
  obtain ⟨j, hj, hjfree⟩ : ∃ j < 10 ^ 6, u.entryAt? (runPlace g.root j) = none := by
    by_cases htaken : ∃ a, ψ = some (a, k)
    · obtain ⟨a, rfl⟩ := htaken
      exact ⟨k', hk', (h.shared_runs k' (by simp) (by simp [hne]) _ List.prefix_rfl).trans hfree'⟩
    · push Not at htaken
      exact ⟨k, hk, (h.shared_runs k (by simp) htaken _ List.prefix_rfl).trans hfree⟩
  obtain ⟨m, hm, hnone', htaken'⟩ := exists_first_free hj hjfree
  have hresolve := hroot.resolve_eq h.alone.wellFormed (h.alone.leadsOn hg.root)
  have hresolve' :=
    (hroot.of_shares h).resolve_eq h.shared.wellFormed (h.shared.leadsOn hg.root)
  have hcheck : checkPath (g.runPath m) = checkPath (g.runPath n) :=
    g.checkPath_runPath hm hn (List.forall_mem_nil IsName)
  have hfresh := makeFresh_eq hresolve hnone htaken hn
  have hfresh' := makeFresh_eq hresolve' hnone' htaken' hm
  rw [← runPath] at hfresh hfresh'
  rw [hfresh, hfresh', hcheck]
  cases hpath : checkPath (g.runPath n) with
  | error e => exact .inl ⟨e, rfl, rfl⟩
  | ok => exact .inr ⟨n, m, _, _, rfl, rfl, h.opens hg.wellFormed hroot hn hm hnone hnone' hpath⟩

/-! ## Below the output directory -/

section Output

variable {parts directories : List String} {file : String}

/-- The directories for what is delivered are there. -/
def HasDirectories (g : Ground) (output : String) (directories : List String) (file : String)
    (t : FileTree) : Prop :=
  ∃ d names, g.own = d ++ names ∧
    g.start.LeadsOn (joinAll output (directories ++ [file])) d (names ++ directories ++ [file]) ∧
    t.obstacle? d (names ++ directories) = none ∧
    t.entryAt? (d ++ (names ++ directories)) = some .directory

end Output

end Ground

namespace Ground

section Output

variable {parts directories : List String} {file : String}

/-- A file is written in a directory that is there, unless a directory has its name. -/
theorem HasDirectories.writeFile_eq (h : g.HasDirectories output directories file t)
    (ht : g.Settles t) (hfile : IsName file)
    (hcheck : checkPath (joinAll output (directories ++ [file])) = .ok ()) (content : ByteArray) :
    t.writeFile (joinAll output (directories ++ [file])) content =
      if maxNameSize < file.utf8ByteSize then .error .nameTooLong
      else if t.isDirectoryAt (g.own ++ (directories ++ [file])) then .error .isADirectory
      else .ok (t.put (g.own ++ (directories ++ [file])) (.file content t.now)) := by
  obtain ⟨d, names, hown, hleads, hclear, hdirectory⟩ := h
  rw [(ht.leadsOn hleads).writeFile_eq ht.wellFormed hcheck
    (Path.hasFinalSlash_joinAll output directories hfile) hclear hdirectory, hown]
  simp only [List.append_assoc]
  congr 1
  by_cases hbusy : t.entryAt? (d ++ (names ++ (directories ++ [file]))) = some .directory
  · rw [hbusy, if_pos (isDirectoryAt_iff.mpr hbusy)]
  · rw [if_neg (mt isDirectoryAt_iff.mp hbusy)]
    split
    · contradiction
    · rfl

/-- What is written below the output directory is added to the tree. -/
theorem HasDirectories.adds (h : g.HasDirectories output directories file t) (ht : g.Settles t)
    (hown : g.HasOutput output) (hfile : IsName file)
    (hbusy : t.entryAt? (g.own ++ (directories ++ [file])) ≠ some .directory)
    (content : ByteArray) (modified : Nat) :
    t.Adds (g.own ++ (directories ++ [file]))
      (t.put (g.own ++ (directories ++ [file])) (.file content modified)) := by
  obtain ⟨d, names, heq, -, -, hdirectory⟩ := h
  refine .file content modified ⟨g.own ++ directories, file, (List.append_assoc ..).symm, hfile,
    ?_⟩ ?_
  · rw [heq, List.append_assoc, hdirectory]
  · unfold IsFree IsFileAt
    cases hentry : t.entryAt? (g.own ++ (directories ++ [file])) with
    | none => exact .inl rfl
    | some entry =>
      cases entry with
      | file content modified => exact .inr ⟨content, modified, rfl⟩
      | directory => exact absurd hentry hbusy
      | link target =>
        exact absurd (ht.links _ _ hentry) (hown.noLinks _ target (List.prefix_append ..))

end Output

/-! ## In the directory of a run -/

section Run

variable {name : String} {way : List Location} {entry : Entry}

/-- Changes in the directory of a run that stays open. -/
theorem Shares.within (h : g.Shares (some (n, m)) ψ t u) (hstart : g.start.WellFormed)
    (ht : Changes t t') (hu : Changes u u')
    (houtside : ∀ l, ¬ runPlace g.root n <+: l → t'.entryAt? l = t.entryAt? l)
    (houtside' : ∀ l, ¬ runPlace g.root m <+: l → u'.entryAt? l = u.entryAt? l)
    (htidy : t'.IsTidy (g.runPath n) (runPlace g.root n) way)
    (hmirrors : Mirrors t' (runPlace g.root n) u' (runPlace g.root m)) :
    g.Shares (some (n, m)) ψ t' u' ∧ g.Moves (some (n, m)) (some (n, m)) u u' := by
  have hopened := h.opened n m rfl
  exact h.in_run hstart ht hu houtside houtside' hopened.vacant hopened.vacant_shared (.inr rfl)
    (.inr rfl) (fun n' => h.apart n n' m rfl)
    (fun _ => { hopened with
      directory := htidy.workspace.directory
      mirrors := hmirrors
      storable := htidy.storable }) (by simp)

end Run

end Ground

/-! ## Removals -/

/-- Removes a directory or anything else. -/
def removeEntry (t : FileTree) (isDirectory : Bool) (path : String) : Except Error FileTree :=
  if isDirectory then t.removeDirectory path else t.removeFile path

/-- Nothing is below a place. -/
def IsBare (t : FileTree) (l : Location) : Prop := ∀ m, l <+: m → m ≠ l → t.entryAt? m = none

theorem IsTidy.removeEntry_eq {place : Location} {way : List Location} {entry : Entry}
    (ht : t.WellFormed) (h : t.IsTidy path place way) (hne : names ≠ [])
    (hentry : t.entryAt? (place ++ names) = some entry) (hbare : t.IsBare (place ++ names)) :
    t.removeEntry entry.isDirectory (joinAll path names) = .ok (t.erase (place ++ names)) := by
  unfold removeEntry
  split
  · rename_i hkind
    obtain rfl : entry = .directory := by cases entry <;> simp_all [Entry.isDirectory]
    exact h.removeDirectory_eq ht hne hentry hbare
  · rename_i hkind
    exact h.removeFile_eq ht hentry (Bool.eq_false_of_not_eq_true hkind)

theorem Mirrors.erase {p q : Location} (h : Mirrors t p u q) (hp : p ++ names ≠ [])
    (hq : q ++ names ≠ []) : Mirrors (t.erase (p ++ names)) p (u.erase (q ++ names)) q := by
  intro more
  rw [contentAt?, contentAt?, entryAt?_erase t hp, entryAt?_erase u hq]
  by_cases hmore : more = names
  · simp [hmore]
  · rw [if_neg fun heq => hmore (List.append_cancel_left heq),
      if_neg fun heq => hmore (List.append_cancel_left heq)]
    exact h more

theorem Mirrors.isBare {p q : Location} (h : Mirrors t p u q) (hbare : t.IsBare (p ++ names)) :
    u.IsBare (q ++ names) := by
  rintro m ⟨more, rfl⟩ hne
  rw [List.append_assoc, ← contentAt?_eq_none_iff, ← h, contentAt?_eq_none_iff,
    ← List.append_assoc]
  exact hbare _ (List.prefix_append ..) (by simpa using hne)

theorem Mirrors.exists_entry {p q : Location} (h : Mirrors t p u q) {entry : Entry}
    (hentry : t.entryAt? (p ++ names) = some entry) : ∃ entry',
      u.entryAt? (q ++ names) = some entry' ∧ entry'.isDirectory = entry.isDirectory := by
  have hcontent := h names
  rw [contentAt?, contentAt?, hentry] at hcontent
  cases hentry' : u.entryAt? (q ++ names) with
  | none => simp [hentry'] at hcontent
  | some entry' =>
    rw [hentry'] at hcontent
    refine ⟨entry', rfl, ?_⟩
    cases entry <;> cases entry' <;> simp_all [untimed, Entry.isDirectory]

namespace Ground

/-- **An entry in the directory of a run is removed on both trees.** -/
theorem Shares.remove (h : g.Shares (some (n, m)) ψ t u) (hg : g.Hosts source output output')
    (hne : names ≠ []) {entry : Entry}
    (hentry : t.entryAt? (runPlace g.root n ++ names) = some entry)
    (hbare : t.IsBare (runPlace g.root n ++ names)) :
    t.removeEntry entry.isDirectory (joinAll (g.runPath n) names)
        = .ok (t.erase (runPlace g.root n ++ names)) ∧
      u.removeEntry entry.isDirectory (joinAll (g.runPath m) names)
        = .ok (u.erase (runPlace g.root m ++ names)) ∧
      g.Shares (some (n, m)) ψ (t.erase (runPlace g.root n ++ names))
        (u.erase (runPlace g.root m ++ names)) ∧
      g.Moves (some (n, m)) (some (n, m)) u (u.erase (runPlace g.root m ++ names)) := by
  have hopened := h.opened n m rfl
  obtain ⟨way, htidy⟩ := hopened.exists_isTidy hg.wellFormed hg.root h.alone
  obtain ⟨way', htidy'⟩ := hopened.exists_isTidy_shared hg.wellFormed hg.root h.shared
  obtain ⟨entry', hentry', hkind⟩ := hopened.mirrors.exists_entry hentry
  have hbare' := hopened.mirrors.isBare hbare
  have hplace (k : Nat) : runPlace g.root k ++ names ≠ [] := by simp [hne]
  have htakes : t.Takes (runPlace g.root n ++ names) _ := .entry (hplace n) hbare
  have htakes' : u.Takes (runPlace g.root m ++ names) _ := .entry (hplace m) hbare'
  have houtside {v : FileTree} {k : Nat} (l : Location) (hl : ¬ runPlace g.root k <+: l) :
      (v.erase (runPlace g.root k ++ names)).entryAt? l = v.entryAt? l := by
    rw [entryAt?_erase v (hplace k), if_neg]
    rintro rfl
    exact hl (List.prefix_append ..)
  exact ⟨htidy.removeEntry_eq h.alone.wellFormed hne hentry hbare,
    hkind ▸ htidy'.removeEntry_eq h.shared.wellFormed hne hentry' hbare',
    h.within hg.wellFormed (.single ⟨_, .inr htakes⟩) (.single ⟨_, .inr htakes'⟩) houtside houtside
      (htidy.of_takes hne htakes) (hopened.mirrors.erase (hplace n) (hplace m))⟩

end Ground

end FileTree

end IdlCompiler
