/-
# Two runs on one tree

Two runs on one tree share the directory that their own directories stand in.  Each run has
places of its own, below its output directory and in its own directory; elsewhere it makes no more
than missing directories on the ways to these.  A run that shares a tree is compared with the same
run on a tree of its own: both trees show the same outside the places of the other run, and the
same is in the two directories of the run, whatever their names are.

Main statements: `Shares.of_moves`, the steps of one run do not touch what is compared for the
other; and `Shares.outside` and `Shares.in_run`, steps that are made on both trees in the same way.
-/
import IdlCompiler.Proofs.Lasting
import IdlCompiler.Proofs.Mirrors

namespace IdlCompiler

open IdlCompiler.Path (IsName walked joinAll)

namespace FileTree

/-- The place of a numbered directory. -/
def runPlace (root : Location) (k : Nat) : Location := root ++ [freshName k]

/-- Where two runs work: the tree that they find, the path of the directory that their own
directories stand in, which leads to a directory and down from there, and the output directories
of the one run and of the other. -/
structure Ground where
  start : FileTree
  rootPath : String
  rootStart : Location
  rootNames : List String
  own : Location
  other : Location

/-- A directory is there that was missing. -/
def IsNewDirectory (t u : FileTree) (l : Location) : Prop :=
  t.entryAt? l = none ∧ u.entryAt? l = some .directory

namespace Ground

/-- The directory that the directories of the runs stand in. -/
def root (g : Ground) : Location := g.rootStart ++ g.rootNames

/-- The same from the side of the other run. -/
def swap (g : Ground) : Ground := { g with own := g.other, other := g.own }

/-- A place is in a numbered directory. -/
def InRun (g : Ground) (l : Location) : Prop := ∃ k, runPlace g.root k <+: l

/-- A place is at or below the output directory and does not belong to the directories of runs. -/
structure IsOwn (g : Ground) (l : Location) : Prop where
  below : g.own <+: l
  not_inRun : ¬ g.InRun l
  not_above : ¬ l <+: g.root

/-- A place is the other run's. -/
def IsOther (g : Ground) (l : Location) : Prop := g.swap.IsOwn l

/-- A tree that two runs can have come to.  Outside their own places there are no more than new
directories on the ways to these. -/
structure Settles (g : Ground) (u : FileTree) : Prop where
  wellFormed : u.WellFormed
  links : u.HasLinksOf g.start
  lasts : g.start.Lasts u
  kept : ∀ l, ¬ g.InRun l → ¬ g.IsOwn l → ¬ g.IsOther l → u.entryAt? l = g.start.entryAt? l ∨
    IsNewDirectory g.start u l ∧ (l <+: g.root ∨ l <+: g.own ∨ l <+: g.other)

/-- What a step of a run can change in a tree, in these phases before and after it.  A phase
tells the number of the directory of the run on a tree of its own and on the shared tree. -/
structure Moves (g : Ground) (before after : Option (Nat × Nat)) (t u : FileTree) : Prop where
  kept : ∀ l, ¬ g.InRun l → ¬ g.IsOwn l → u.entryAt? l = t.entryAt? l ∨
    IsNewDirectory t u l ∧ (l <+: g.root ∨ l <+: g.own)
  runs : ∀ k, (∀ n, before ≠ some (n, k)) → (∀ n, after ≠ some (n, k)) →
    ∀ l, runPlace g.root k <+: l → u.entryAt? l = t.entryAt? l

/-- A place looks the same on both trees, unless the other run has made a directory there. -/
def IsAlike (g : Ground) (t u : FileTree) (l : Location) : Prop :=
  u.contentAt? l = t.contentAt? l ∨ IsNewDirectory t u l ∧ (l <+: g.root ∨ l <+: g.other)

/-- The directory of a run has this number on a tree of its own and this number on the shared
tree, and holds the same on both. -/
structure IsOpened (g : Ground) (n m : Nat) (t u : FileTree) : Prop where
  vacant : g.start.entryAt? (runPlace g.root n) = none
  vacant_shared : g.start.entryAt? (runPlace g.root m) = none
  lt : n < 10 ^ 6
  lt_shared : m < 10 ^ 6
  root_short : ∀ a ∈ g.rootNames, a.utf8ByteSize ≤ maxNameSize
  directory : t.entryAt? (runPlace g.root n) = some .directory
  mirrors : Mirrors t (runPlace g.root n) u (runPlace g.root m)
  storable : ∀ names, t.entryAt? (runPlace g.root n ++ names) ≠ none →
    checkPath (joinAll (Path.join g.rootPath (freshName n)) names) = .ok () ∧
      ∀ a ∈ names, a.utf8ByteSize ≤ maxNameSize

/-- What holds of a tree `t` that a run has alone and a tree `u` that it shares, in a phase of the
run and a phase of the other run. -/
structure Shares (g : Ground) (φ ψ : Option (Nat × Nat)) (t u : FileTree) : Prop where
  alone : g.Settles t
  shared : g.Settles u
  alike : ∀ l, ¬ g.InRun l → ¬ g.IsOther l → g.IsAlike t u l
  opened : ∀ n m, φ = some (n, m) → g.IsOpened n m t u
  alone_runs : ∀ k, (∀ m, φ ≠ some (k, m)) →
    ∀ l, runPlace g.root k <+: l → t.entryAt? l = g.start.entryAt? l
  shared_runs : ∀ k, (∀ n, φ ≠ some (n, k)) → (∀ n, ψ ≠ some (n, k)) →
    ∀ l, runPlace g.root k <+: l → u.entryAt? l = g.start.entryAt? l
  apart : ∀ n n' m, φ = some (n, m) → ψ ≠ some (n', m)
  present : ∀ n m, ψ = some (n, m) → u.entryAt? (runPlace g.root m) = some .directory

end Ground

open Ground

variable {g : Ground} {t t' u u' v : FileTree} {l : Location} {φ φ' ψ : Option (Nat × Nat)}
  {n m k : Nat}

theorem Ground.Settles.swap (h : g.Settles u) : g.swap.Settles u where
  wellFormed := h.wellFormed
  links := h.links
  lasts := h.lasts
  kept l hrun hown hother := by
    rcases h.kept l hrun hother hown with heq | ⟨hnew, hplace⟩
    · exact .inl heq
    · exact .inr ⟨hnew, hplace.imp_right Or.symm⟩

/-- Names of one size make paths of one size. -/
theorem checkPath_congr {front behind name name' : String}
    (hsize : name.utf8ByteSize = name'.utf8ByteSize) (hne : name ≠ "") (hne' : name' ≠ "")
    (hnul : '\x00' ∉ name.toList) (hnul' : '\x00' ∉ name'.toList) :
    checkPath (front ++ name ++ behind) = checkPath (front ++ name' ++ behind) := by
  simp [checkPath, isShort, hsize, hnul, hnul', hne, hne']

/-- Numbered directories are apart. -/
theorem runPlace_injective {root : Location} (h : runPlace root n <+: l)
    (h' : runPlace root m <+: l) : n = m := by
  have heq := List.prefix_of_prefix_length_le h h' (by simp [runPlace])
  have hlast := List.IsPrefix.eq_of_length heq (by simp [runPlace])
  exact freshName_injective (List.singleton_inj.mp (List.append_cancel_left hlast))

theorem not_runPlace_isPrefix {root : Location} (hl : l <+: root) : ¬ runPlace root k <+: l :=
  fun h => by simpa [runPlace] using (h.trans hl).length_le

theorem Ground.Moves.of_none (h : g.Moves none none t u) : g.Moves φ φ' t u where
  kept := h.kept
  runs k _ _ := h.runs k (by simp) (by simp)

theorem Ground.Settles.of_changes (h : g.Settles t) (hchanges : Changes t u)
    (hlasts : g.start.Lasts u) (hkept : ∀ l, ¬ g.InRun l → ¬ g.IsOwn l →
      u.entryAt? l = t.entryAt? l ∨ IsNewDirectory t u l ∧ (l <+: g.root ∨ l <+: g.own)) :
    g.Settles u where
  wellFormed := hchanges.wellFormed h.wellFormed
  links m target hm := h.links m target (hchanges.hasLinksOf m target hm)
  lasts := hlasts
  kept l hrun hown hother := by
    rcases hkept l hrun hown with heq | ⟨⟨hnone, hdirectory⟩, hplace⟩
    · rcases h.kept l hrun hown hother with hkept | ⟨hnew, hplace⟩
      · exact .inl (heq.trans hkept)
      · exact .inr ⟨⟨hnew.1, heq.trans hnew.2⟩, hplace⟩
    · have hstart : g.start.entryAt? l = none := by
        by_contra hthere
        exact h.lasts.ne_none hthere hnone
      exact .inr ⟨⟨hstart, hdirectory⟩, hplace.imp_right .inl⟩

/-- **Additions outside the directories of runs** that leave both trees alike. -/
theorem Ground.Shares.outside {area area' : Location → Prop} (h : g.Shares φ ψ t u)
    (ht : Grows area t t') (hu : Grows area' u u') (hmoves : g.Moves none none t t')
    (hmoves' : g.Moves none none u u')
    (halike : ∀ l, ¬ g.InRun l → ¬ g.IsOther l → g.IsAlike t' u' l) : g.Shares φ ψ t' u' where
  alone := h.alone.of_changes ht.changes (h.alone.lasts.trans (.of_grows ht)) hmoves.kept
  shared := h.shared.of_changes hu.changes (h.shared.lasts.trans (.of_grows hu)) hmoves'.kept
  alike := halike
  opened n m hφ := by
    have hopened := h.opened n m hφ
    have hkept (names : List String) : t'.entryAt? (runPlace g.root n ++ names) =
        t.entryAt? (runPlace g.root n ++ names) :=
      hmoves.runs n (by simp) (by simp) _ (List.prefix_append _ names)
    have hkept' (names : List String) : u'.entryAt? (runPlace g.root m ++ names) =
        u.entryAt? (runPlace g.root m ++ names) :=
      hmoves'.runs m (by simp) (by simp) _ (List.prefix_append _ names)
    refine { hopened with
      directory := ht.stays _ |>.1 hopened.directory
      mirrors := fun names => ?_
      storable := fun names hentry => hopened.storable names (hkept names ▸ hentry) }
    rw [contentAt?_eq_of_entryAt?_eq (hkept names), hopened.mirrors names,
      contentAt?_eq_of_entryAt?_eq (hkept' names)]
  alone_runs k hk l hl := (hmoves.runs k (by simp) (by simp) l hl).trans (h.alone_runs k hk l hl)
  shared_runs k hφ hψ l hl :=
    (hmoves'.runs k (by simp) (by simp) l hl).trans (h.shared_runs k hφ hψ l hl)
  apart := h.apart
  present n m hψ := (hu.stays _).1 (h.present n m hψ)

/-- A tree after changes where nothing was at the start. -/
theorem Ground.Settles.lasts_of_vacant (h : g.Settles t)
    (hvacant : g.start.entryAt? (runPlace g.root n) = none) (hstart : g.start.WellFormed)
    (houtside : ∀ l, ¬ runPlace g.root n <+: l → u.entryAt? l = t.entryAt? l) :
    g.start.Lasts u where
  stays l := by
    have hout (hl : g.start.entryAt? l ≠ none) : u.entryAt? l = t.entryAt? l :=
      houtside l fun ⟨names, hnames⟩ => hl (hnames ▸ hstart.entryAt?_append_of_none hvacant names)
    refine ⟨fun hl => ?_, fun target hl => ?_⟩
    · exact (hout (by simp [hl])).trans ((h.lasts.stays l).1 hl)
    · exact (hout (by simp [hl])).trans ((h.lasts.stays l).2 target hl)
  isFileAt l := by
    rintro ⟨content, modified, hl⟩
    obtain ⟨content', modified', hl'⟩ := h.lasts.isFileAt l ⟨content, modified, hl⟩
    exact ⟨content', modified', (houtside l fun ⟨names, hnames⟩ => by
      simp [← hnames, hstart.entryAt?_append_of_none hvacant] at hl).trans hl'⟩

/-- Below a place where nothing is, nothing is as nothing was before. -/
theorem WellFormed.entryAt?_eq_of_vacant (ht : t.WellFormed) {place l : Location}
    (hvacant : t.entryAt? place = none) (hempty : ∀ l, place <+: l → u.entryAt? l = none)
    (hl : place <+: l) : u.entryAt? l = t.entryAt? l := by
  rw [hempty l hl]
  obtain ⟨names, rfl⟩ := hl
  exact (ht.entryAt?_append_of_none hvacant names).symm

/-- **Changes in the directory of a run**, which may be opened or closed by them. -/
theorem Ground.Shares.in_run (h : g.Shares φ ψ t u) (hstart : g.start.WellFormed)
    (ht : Changes t t') (hu : Changes u u')
    (houtside : ∀ l, ¬ runPlace g.root n <+: l → t'.entryAt? l = t.entryAt? l)
    (houtside' : ∀ l, ¬ runPlace g.root m <+: l → u'.entryAt? l = u.entryAt? l)
    (hvacant : g.start.entryAt? (runPlace g.root n) = none)
    (hvacant' : g.start.entryAt? (runPlace g.root m) = none)
    (hφ : φ = none ∨ φ = some (n, m)) (hφ' : φ' = none ∨ φ' = some (n, m))
    (hψ : ∀ n', ψ ≠ some (n', m)) (hopened : φ' = some (n, m) → g.IsOpened n m t' u')
    (hclosed : φ' = none → (∀ l, runPlace g.root n <+: l → t'.entryAt? l = none) ∧
      ∀ l, runPlace g.root m <+: l → u'.entryAt? l = none) :
    g.Shares φ' ψ t' u' ∧ g.Moves φ φ' u u' := by
  have hmoves : g.Moves φ φ' u u' := by
    refine ⟨fun l hrun _ => .inl (houtside' l fun hl => hrun ⟨m, hl⟩), fun k hk hk' l hl => ?_⟩
    by_cases hkm : k = m
    · subst hkm
      obtain rfl : φ = none := hφ.resolve_right (hk n)
      obtain rfl : φ' = none := hφ'.resolve_right (hk' n)
      rw [hstart.entryAt?_eq_of_vacant hvacant' (hclosed rfl).2 hl,
        h.shared_runs k (by simp) hψ l hl]
    · exact houtside' l fun hl' => hkm (runPlace_injective hl hl')
  have hkept (l : Location) (hrun : ¬ g.InRun l) : t'.entryAt? l = t.entryAt? l :=
    houtside l fun hl => hrun ⟨n, hl⟩
  have hkept' (l : Location) (hrun : ¬ g.InRun l) : u'.entryAt? l = u.entryAt? l :=
    houtside' l fun hl => hrun ⟨m, hl⟩
  have hphase {χ : Option (Nat × Nat)} (hχ : χ = none ∨ χ = some (n, m)) {n' m' : Nat}
      (h : χ = some (n', m')) : n' = n ∧ m' = m := by
    rcases hχ with rfl | rfl
    · simp at h
    · simpa [eq_comm] using h
  refine ⟨?_, hmoves⟩
  exact {
    alone := h.alone.of_changes ht (h.alone.lasts_of_vacant hvacant hstart houtside)
      fun l hrun _ => .inl (hkept l hrun)
    shared := h.shared.of_changes hu (h.shared.lasts_of_vacant hvacant' hstart houtside')
      fun l hrun _ => .inl (hkept' l hrun)
    alike := fun l hrun hother => by
      have halike := h.alike l hrun hother
      simp only [IsAlike, IsNewDirectory, contentAt?, hkept l hrun, hkept' l hrun] at halike ⊢
      exact halike
    opened := fun n' m' h => by
      obtain ⟨rfl, rfl⟩ := hphase hφ' h
      exact hopened h
    alone_runs := fun k hk l hl => by
      by_cases hkn : k = n
      · subst hkn
        obtain rfl : φ' = none := hφ'.resolve_right (hk m)
        exact hstart.entryAt?_eq_of_vacant hvacant (hclosed rfl).1 hl
      · rw [houtside l fun hl' => hkn (runPlace_injective hl hl')]
        exact h.alone_runs k (fun m' heq => hkn (hphase hφ heq).1) l hl
    shared_runs := fun k hk hother l hl => by
      by_cases hkm : k = m
      · subst hkm
        obtain rfl : φ' = none := hφ'.resolve_right (hk n)
        exact hstart.entryAt?_eq_of_vacant hvacant' (hclosed rfl).2 hl
      · rw [houtside' l fun hl' => hkm (runPlace_injective hl hl')]
        exact h.shared_runs k (fun n' heq => hkm (hphase hφ heq).2) hother l hl
    apart := fun n' n'' m' heq => (hphase hφ' heq).2 ▸ hψ n''
    present := fun n' m' heq => by
      rw [houtside' _ fun hl => ?_]
      · exact h.present n' m' heq
      · obtain rfl := runPlace_injective List.prefix_rfl hl
        exact hψ n' heq }

end FileTree

end IdlCompiler
