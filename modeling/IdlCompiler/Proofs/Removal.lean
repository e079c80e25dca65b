/-
# The removal of a workspace

A workspace is removed entry by entry, the insides of directories first, and the directory
itself last.  The removal stops at the first entry that stays.

Main statements: `shrinks_of_does_cleanup`, the removal of a workspace takes away nothing
else, and leaves nothing of it if no entry stays; and `isGone_of_does_cleanup`, whatever a path
leads to, it leads to nothing after a removal that goes well.
-/
import IdlCompiler.Build.Workspace
import IdlCompiler.Proofs.Effects
import IdlCompiler.Proofs.Walks
import IdlCompiler.Proofs.Workspaces

namespace IdlCompiler

open IdlCompiler.Path (IsPlain IsName walked joinAll)

namespace FileTree

variable {t u : FileTree} {place l : Location} {path : String} {way : List Location}
  {names : List String}

/-! ## What is removed under a path -/

/-- A path names an entry: it leads there without following a link at its end, or its last name
is looked for there. -/
def Names (t : FileTree) (path : String) (l : Location) : Prop :=
  t.locate .entry path = .ok l ∨ ∃ above name,
    t.locateParent path = .ok (above, some name) ∧ IsPlain name ∧ l = above ++ [name]

theorem Names.eq_of_leads (ht : t.WellFormed) (h : t.Names path l)
    (hslash : Path.hasFinalSlash path = false) {m : Location}
    (hm : t.Leads .entry maxLinks [] (walked path) way m) : m = l := by
  rcases h with h | ⟨above, name, h, plain, rfl⟩
  · obtain ⟨-, way', hway⟩ := locate_eq_ok_iff.mp h
    rw [Path.steps_eq, hslash, if_neg (by simp), List.append_nil] at hway
    exact hm.unique hway
  · exact eq_concat_of_locateParent ht h plain hm

/-- A path below a workspace names what is below it. -/
theorem IsWorkspace.eq_of_names (ht : t.WellFormed) (h : t.IsWorkspace path place way)
    (hnames : ∀ a ∈ names, IsName a) (hl : t.Names (joinAll path names) l) :
    l = place ++ names := by
  have hwalked := Path.walked_joinAll (d := path) hnames
  rcases hl with hl | ⟨above, name, hl, plain, rfl⟩
  · rcases List.eq_nil_or_concat' names with rfl | ⟨init, last, rfl⟩
    · rw [List.append_nil]
      exact (Names.eq_of_leads ht (.inl hl) h.noFinalSlash h.leads).symm
    · obtain ⟨-, way', hway⟩ := locate_eq_ok_iff.mp hl
      rw [Path.steps_joinAll (by simp) hnames] at hway
      exact h.eq_append (by simp) (fun a ha => (hnames a ha).plain) hway
  · exact h.eq_of_locateParent ht (fun a ha => (hnames a ha).plain) hwalked hl plain

/-- A workspace stays one when something below it is removed. -/
theorem IsWorkspace.of_takes (h : t.IsWorkspace path place way) (hne : names ≠ [])
    (htakes : t.Takes (place ++ names) u) : u.IsWorkspace path place way := by
  have hstays (m : Location) (hm : place <+: m → m = place) : t.Stays u m := by
    have hother : m ≠ place ++ names := by
      rintro rfl
      exact hne (by simpa using hm (List.prefix_append ..))
    simp [Stays, htakes.entryAt?, hother]
  exact h.mono (fun m hm => hstays m (h.clear m hm)) (hstays place fun _ => rfl)
    fun m target hm => htakes.of_entryAt? hm

/-- A path leads to no entry. -/
def IsGone (t : FileTree) (path : String) : Prop :=
  ∀ l, t.locate .entry path = .ok l → t.entryAt? l = none

/-- What a path leads to where less is, it leads to where more is. -/
theorem locate_of_shrinks {area : Location → Prop} (h : Shrinks area t u) {entry : Entry}
    (hl : u.locate .entry path = .ok l) (hentry : u.entryAt? l = some entry) :
    t.locate .entry path = .ok l := by
  obtain ⟨hcheck, way, hway⟩ := locate_eq_ok_iff.mp hl
  refine locate_eq_ok_iff.mpr ⟨hcheck, way, hway.mono (fun m _ => ?_) fun ends => ?_⟩
  · exact ⟨fun hm => h.of_entryAt? hm, fun target hm => h.of_entryAt? hm⟩
  · unfold Ends at ends ⊢
    rwa [hentry, ← h.of_entryAt? hentry] at ends

theorem IsGone.of_shrinks {area : Location → Prop} (h : t.IsGone path)
    (hshrinks : Shrinks area t u) : u.IsGone path := by
  intro l hl
  rw [Option.eq_none_iff_forall_ne_some]
  intro entry hentry
  have hold := h l (locate_of_shrinks hshrinks hl hentry)
  rw [hshrinks.of_entryAt? hentry] at hold
  simp at hold

/-- What a path names is not there when it has been removed. -/
theorem isGone_of_takes (ht : t.WellFormed) (h : t.Names path l)
    (hslash : Path.hasFinalSlash path = false) (htakes : t.Takes l u) : u.IsGone path := by
  intro m hm
  rw [Option.eq_none_iff_forall_ne_some]
  intro entry hentry
  have hshrinks : Shrinks (fun _ => True) t u := .single ⟨l, trivial, htakes⟩
  obtain ⟨-, way, hway⟩ := locate_eq_ok_iff.mp (locate_of_shrinks hshrinks hm hentry)
  rw [Path.steps_eq, hslash, if_neg (by simp), List.append_nil] at hway
  rw [h.eq_of_leads ht hslash hway, htakes.entryAt?, if_pos rfl] at hentry
  simp at hentry

end FileTree

namespace Build

open FileTree

variable {t u : FileTree} {place l : Location} {path : String} {way : List Location}
  {names : List String} {asked : List Request}

/-- An entry below a path, by the names that lead to it, and whether it is a directory. -/
abbrev Remains := List String × Except FileTree.Error Bool

/-! ## Rows of removals -/

/-- An entry is removed where its path names it. -/
theorem takes_of_remove (ht : t.WellFormed) {isDirectory : Bool}
    (h : (Work.remove isDirectory path).Does serve t asked (.ok ()) u) :
    ∃ l, t.Names path l ∧ t.Takes l u := by
  cases isDirectory with
  | false =>
    obtain ⟨-, hanswer, hu⟩ := h.unique (Work.does_request serve (.removeFile path) t)
    cases hremove : t.removeFile path with
    | error e => simp [serve, hremove, changed] at hanswer
    | ok v =>
      obtain rfl : u = v := by simpa [serve, hremove, changed] using hu
      obtain ⟨l, hl, htakes⟩ := removeFile_takes ht hremove
      exact ⟨l, .inl hl, htakes⟩
  | true =>
    obtain ⟨-, hanswer, hu⟩ := h.unique (Work.does_request serve (.removeDirectory path) t)
    cases hremove : t.removeDirectory path with
    | error e => simp [serve, hremove, changed] at hanswer
    | ok v =>
      obtain rfl : u = v := by simpa [serve, hremove, changed] using hu
      obtain ⟨above, name, hparent, plain, -, htakes⟩ := removeDirectory_takes hremove
      exact ⟨_, .inr ⟨above, name, hparent, plain, rfl⟩, htakes⟩

/-- A removal that fails changes nothing. -/
theorem eq_of_remove_error {isDirectory : Bool} {e : FileTree.Error}
    (h : (Work.remove isDirectory path).Does serve t asked (.error e) u) : u = t := by
  cases isDirectory with
  | false =>
    obtain ⟨-, hanswer, hu⟩ := h.unique (Work.does_request serve (.removeFile path) t)
    cases hremove : t.removeFile path <;> simp_all [serve, changed]
  | true =>
    obtain ⟨-, hanswer, hu⟩ := h.unique (Work.does_request serve (.removeDirectory path) t)
    cases hremove : t.removeDirectory path <;> simp_all [serve, changed]

/-- What every single removal of a row preserves, the row preserves. -/
theorem removeEntries_induction {I : FileTree → Prop} {entries : List Remains}
    (hstep : ∀ names isDirectory t asked u, (names, .ok isDirectory) ∈ entries → I t →
      (Work.remove isDirectory (joinAll path names)).Does serve t asked (.ok ()) u → I u)
    (hstart : I t) {result : Except CleanupError Unit}
    (h : (removeEntries path entries).outcome.Does serve t asked result u) : I u := by
  induction entries generalizing t asked with
  | nil =>
    obtain ⟨-, -, rfl⟩ := h.unique (Attempt.does_pure serve () t)
    exact hstart
  | cons entry entries ih =>
    obtain ⟨names, e | isDirectory⟩ := entry
    · obtain ⟨-, -, rfl⟩ := h.unique (Attempt.does_throw serve _ t)
      exact hstart
    · rcases Attempt.of_does_bind h with ⟨_, rfl, hfirst⟩ | ⟨_, _, s₁, _, rfl, hfirst, hrest⟩
      · obtain ⟨_, -, hfailed⟩ := Attempt.of_does_of_error hfirst
        exact eq_of_remove_error hfailed ▸ hstart
      · have hnext := hstep _ _ _ _ _ List.mem_cons_self hstart (Attempt.of_does_of_ok hfirst)
        exact ih (fun names isDirectory t asked u hmem => hstep names isDirectory t asked u
          (List.mem_cons_of_mem _ hmem)) hnext hrest

theorem removeEntries_append (path : String) (entries rest : List Remains) :
    removeEntries path (entries ++ rest)
      = (do removeEntries path entries; removeEntries path rest) := by
  induction entries with
  | nil => rfl
  | cons entry entries ih =>
    obtain ⟨names, e | isDirectory⟩ := entry
    · rfl
    · simp only [List.cons_append, removeEntries, ih, bind_assoc]

/-! ## What remains -/

/-- What remains under a path is the path itself and what has names below it, in some order. -/
theorem exists_contents_eq (ht : t.WellFormed) (path : String) : ∃ before x after,
    t.contents path = before ++ ([], x) :: after ∧
      ∀ entry ∈ before ++ after, entry.1 ≠ [] ∧ ∀ a ∈ entry.1, IsName a := by
  have hbelow {u : FileTree} (hu : u.WellFormed) (l : Location) {inside : List Remains}
      (hinside : ∀ entry ∈ inside, ∃ found, (entry.1, found) ∈ u.below l) :
      ∀ entry ∈ inside, entry.1 ≠ [] ∧ ∀ a ∈ entry.1, IsName a := by
    intro entry hentry
    obtain ⟨found, hfound⟩ := hinside entry hentry
    obtain ⟨hne, hnames, -⟩ := hu.of_mem_below hfound
    exact ⟨hne, hnames⟩
  unfold contents
  cases t.locate .entry path with
  | error e => exact ⟨[], _, [], rfl, by simp⟩
  | ok l =>
    dsimp only
    cases hl : t.entryAt? l with
    | none => exact ⟨[], _, [], rfl, by simp⟩
    | some entry =>
      cases entry with
      | file | directory =>
        refine ⟨_, _, [], rfl, ?_⟩
        rw [List.append_nil]
        refine hbelow ht l fun entry hentry => ?_
        simp only [List.mem_reverse, List.mem_map] at hentry
        obtain ⟨⟨names, found⟩, hfound, rfl⟩ := hentry
        exact ⟨found, (List.mem_filter.mp hfound).1⟩
      | link target =>
        have hlater := (ht.takes_erase (l := l) (by simp [hl])).wellFormed ht
        dsimp only
        unfold contentsOfLink
        split
        · rename_i place _ _
          refine ⟨[], _, _, rfl, hbelow hlater place fun entry hentry => ?_⟩
          simp only [List.nil_append, List.mem_reverse, List.mem_map] at hentry
          obtain ⟨⟨names, found⟩, hfound, rfl⟩ := hentry
          exact ⟨found, (List.mem_filter.mp hfound).1⟩
        · exact ⟨[], _, [], rfl, by simp⟩
        · exact ⟨[], _, [], rfl, by simp⟩

/-! ## Cleanups -/

/-- A cleanup asks what there is and removes it. -/
theorem of_does_cleanup {failure : Option CleanupError}
    (h : (cleanup path).Does serve t asked failure u) : ∃ removals result,
      asked = .contents path :: removals ∧
      (removeEntries path (t.contents path)).outcome.Does serve t removals result u ∧
      (failure = none ↔ result = .ok ()) := by
  obtain ⟨first, result, s₁, more, rfl, hfirst, hrest⟩ := h.of_bind
  obtain ⟨_, entries, s₂, removals, rfl, hcontents, hremoved⟩ := Attempt.of_does_lift_bind hfirst
  obtain ⟨rfl, rfl, rfl⟩ := hcontents.unique (Work.does_request serve (.contents path) t)
  cases result with
  | ok =>
    obtain ⟨rfl, rfl, rfl⟩ := hrest.unique (Work.does_done serve _ s₁)
    exact ⟨removals, _, by simp, hremoved, by simp⟩
  | error e =>
    obtain ⟨rfl, rfl, rfl⟩ := hrest.unique (Work.does_done serve _ s₁)
    exact ⟨removals, _, by simp, hremoved, by simp⟩

theorem removeEntries_shrinks (ht : t.WellFormed) {entries : List Remains}
    {result : Except CleanupError Unit}
    (h : (removeEntries path entries).outcome.Does serve t asked result u) :
    Shrinks (fun _ => True) t u := by
  refine (removeEntries_induction (I := fun v => Shrinks (fun _ => True) t v) ?_ .refl h)
  intro names isDirectory v asked w _ hv hremove
  obtain ⟨l, -, htakes⟩ := takes_of_remove (hv.changes.wellFormed ht) hremove
  exact hv.tail ⟨l, trivial, htakes⟩

/-- **Nothing is where a cleanup that goes well has been**, whatever the path leads to. -/
theorem isGone_of_does_cleanup (ht : t.WellFormed) (hslash : Path.hasFinalSlash path = false)
    (h : (cleanup path).Does serve t asked none u) : u.IsGone path := by
  obtain ⟨removals, result, rfl, hremoved, hresult⟩ := of_does_cleanup h
  obtain rfl := hresult.mp rfl
  -- The row is cut at the removal of the path itself; what comes later only takes away more.
  obtain ⟨before, x, after, hcontents, -⟩ := exists_contents_eq ht path
  rw [hcontents, removeEntries_append] at hremoved
  rcases Attempt.of_does_bind hremoved with ⟨_, ⟨⟩, -⟩ | ⟨_, _, t₁, _, -, hbefore, hrest⟩
  have ht₁ := (removeEntries_shrinks ht hbefore).changes.wellFormed ht
  cases x with
  | error e =>
    obtain ⟨-, ⟨⟩, -⟩ := hrest.unique (Attempt.does_throw serve _ t₁)
  | ok isDirectory =>
    rcases Attempt.of_does_bind hrest with ⟨_, ⟨⟩, -⟩ | ⟨_, _, t₂, _, -, hpath, hafter⟩
    obtain ⟨l, hl, htakes⟩ := takes_of_remove ht₁ (Attempt.of_does_of_ok hpath)
    exact (isGone_of_takes ht₁ hl hslash htakes).of_shrinks
      (removeEntries_shrinks (htakes.wellFormed ht₁) hafter)

/-! ## The row of removals -/

/-- Tells whether a request removes what a path leads to. -/
def Removes (path : String) : Request → Bool
  | .removeFile p | .removeDirectory p => p = path
  | _ => false

/-- A row of removals removes the path itself as often as the row says, unless it stops. -/
theorem countP_of_does_removeEntries {entries : List Remains}
    (hnames : ∀ entry ∈ entries, ∀ a ∈ entry.1, IsName a) {result : Except CleanupError Unit}
    (h : (removeEntries path entries).outcome.Does serve t asked result u) :
    asked.countP (Removes path) ≤ entries.countP (fun entry => entry.1 = []) ∧
      (result = .ok () →
        asked.countP (Removes path) = entries.countP fun entry => entry.1 = []) := by
  induction entries generalizing t asked with
  | nil =>
    obtain ⟨rfl, -, -⟩ := h.unique (Attempt.does_pure serve () t)
    simp
  | cons entry entries ih =>
    obtain ⟨hfirst, hrest⟩ := List.forall_mem_cons.mp hnames
    obtain ⟨names, e | isDirectory⟩ := entry
    · obtain ⟨rfl, rfl, -⟩ := h.unique (Attempt.does_throw serve _ t)
      simp
    have hself := Path.joinAll_eq_self_iff (d := path) hfirst
    have hsingle {asked : List Request} {answer : Except FileTree.Error Unit} {v : FileTree}
        (hremove : (Work.remove isDirectory (joinAll path names)).Does serve t asked answer v) :
        asked.countP (Removes path) = if names = [] then 1 else 0 := by
      cases isDirectory with
      | false => rw [hremove.of_request.1]; simp [Removes, hself]
      | true => rw [hremove.of_request.1]; simp [Removes, hself]
    rcases Attempt.of_does_bind h with ⟨e, rfl, hremove⟩ | ⟨_, _, v, _, rfl, hremove, hon⟩
    · obtain ⟨_, -, hremove⟩ := Attempt.of_does_of hremove
      rw [hsingle hremove, List.countP_cons]
      simp
    · obtain ⟨_, -, hremove⟩ := Attempt.of_does_of hremove
      obtain ⟨hle, heq⟩ := ih hrest hon
      rw [List.countP_append, List.countP_cons, hsingle hremove]
      constructor
      · simp only [decide_eq_true_eq]
        omega
      · intro hresult
        simp only [decide_eq_true_eq]
        rw [heq hresult, Nat.add_comm]

/-- **A cleanup removes the path itself once**, unless something else stays. -/
theorem countP_of_does_cleanup (ht : t.WellFormed) {failure : Option CleanupError}
    (h : (cleanup path).Does serve t asked failure u) :
    asked.countP (Removes path) ≤ 1 ∧ (failure = none → asked.countP (Removes path) = 1) := by
  obtain ⟨removals, result, rfl, hremoved, hresult⟩ := of_does_cleanup h
  obtain ⟨before, x, after, hcontents, hinside⟩ := exists_contents_eq ht path
  have hnames : ∀ entry ∈ t.contents path, ∀ a ∈ entry.1, IsName a := by
    intro entry hentry
    rw [hcontents, List.mem_append, List.mem_cons] at hentry
    rcases hentry with hentry | rfl | hentry
    · exact (hinside entry (List.mem_append_left _ hentry)).2
    · simp
    · exact (hinside entry (List.mem_append_right _ hentry)).2
  have hone : (t.contents path).countP (fun entry => entry.1 = []) = 1 := by
    have hzero (entries : List Remains) (h : ∀ entry ∈ entries, entry.1 ≠ []) :
        entries.countP (fun entry => entry.1 = []) = 0 :=
      List.countP_eq_zero.mpr fun entry hentry => by simpa using h entry hentry
    rw [hcontents, List.countP_append, List.countP_cons,
      hzero before fun entry hentry => (hinside entry (List.mem_append_left _ hentry)).1,
      hzero after fun entry hentry => (hinside entry (List.mem_append_right _ hentry)).1]
    simp
  obtain ⟨hle, heq⟩ := countP_of_does_removeEntries hnames hremoved
  rw [hone] at hle heq
  rw [List.countP_cons_of_neg (by simp [Removes])]
  exact ⟨hle, fun hnone => heq (hresult.mp hnone)⟩

/-! ## Cleanups of workspaces -/

/-- What remains of a workspace is what is below it and the directory itself, unless nothing can
be found out. -/
theorem contents_cases (ht : t.WellFormed) (h : t.IsWorkspace path place way) :
    (∃ e, t.contents path = [([], .error e)]) ∨ ∃ inside,
      t.contents path = inside ++ [([], .ok true)] ∧
      ∀ entry ∈ inside, entry.1 ≠ [] ∧ ∀ a ∈ entry.1, IsName a := by
  unfold contents
  cases hl : t.locate .entry path with
  | error e => exact .inl ⟨e, rfl⟩
  | ok l =>
    obtain rfl := Names.eq_of_leads ht (.inl hl) h.noFinalSlash h.leads
    simp only [h.directory]
    refine .inr ⟨_, rfl, fun entry hentry => ?_⟩
    simp only [List.mem_reverse, List.mem_map] at hentry
    obtain ⟨⟨names, found⟩, hfound, rfl⟩ := hentry
    obtain ⟨hne, hnames, -⟩ := ht.of_mem_below (List.mem_filter.mp hfound).1
    exact ⟨hne, hnames⟩

/-- **A cleanup takes away nothing but the workspace**, and all of it unless something stays. -/
theorem shrinks_of_does_cleanup (ht : t.WellFormed) (h : t.IsWorkspace path place way)
    {failure : Option CleanupError} (hdoes : (cleanup path).Does serve t asked failure u) :
    Shrinks (fun l => place <+: l) t u ∧
      (failure = none → ∀ m, place <+: m → u.entryAt? m = none) := by
  obtain ⟨removals, result, rfl, hremoved, hresult⟩ := Build.of_does_cleanup hdoes
  rcases contents_cases ht h with ⟨e, hcontents⟩ | ⟨inside, hcontents, hinside⟩
  · rw [hcontents] at hremoved
    obtain ⟨-, rfl, rfl⟩ := hremoved.unique (Attempt.does_throw serve _ t)
    exact ⟨.refl, fun hnone => by simpa using hresult.mp hnone⟩
  rw [hcontents, removeEntries_append] at hremoved
  -- While the inside is removed the workspace stays one.
  have hstep {asked : List Request} {result : Except CleanupError Unit} {v : FileTree}
      (hdoes : (removeEntries path inside).outcome.Does serve t asked result v) :
      Shrinks (fun l => place <+: l) t v ∧ v.IsWorkspace path place way := by
    refine removeEntries_induction
      (I := fun v => Shrinks (fun l => place <+: l) t v ∧ v.IsWorkspace path place way)
      ?_ ⟨.refl, h⟩ hdoes
    intro names isDirectory v asked w hmem ⟨hshrinks, hv⟩ hremove
    obtain ⟨hne, hnames⟩ := hinside _ hmem
    have hwf := hshrinks.changes.wellFormed ht
    obtain ⟨l, hl, htakes⟩ := takes_of_remove hwf hremove
    obtain rfl := hv.eq_of_names hwf hnames hl
    exact ⟨hshrinks.tail ⟨_, List.prefix_append .., htakes⟩, hv.of_takes hne htakes⟩
  rcases Attempt.of_does_bind hremoved with ⟨e, rfl, hinside⟩ | ⟨_, _, t₁, _, -, hinside, hlast⟩
  · exact ⟨(hstep hinside).1, fun hnone => by simpa using hresult.mp hnone⟩
  obtain ⟨hshrinks, ht₁⟩ := hstep hinside
  have hwf := hshrinks.changes.wellFormed ht
  rcases Attempt.of_does_bind hlast with ⟨e, rfl, hfailed⟩ | ⟨_, _, t₂, _, -, hpath, hend⟩
  · obtain ⟨_, -, hfailed⟩ := Attempt.of_does_of_error hfailed
    rw [eq_of_remove_error hfailed]
    exact ⟨hshrinks, fun hnone => by simpa using hresult.mp hnone⟩
  · obtain ⟨-, -, rfl⟩ := hend.unique (Attempt.does_pure serve () t₂)
    obtain ⟨l, hl, htakes⟩ := takes_of_remove hwf (Attempt.of_does_of_ok hpath)
    obtain rfl : place = l := hl.eq_of_leads hwf ht₁.noFinalSlash ht₁.leads
    refine ⟨hshrinks.tail ⟨_, List.prefix_rfl, htakes⟩, fun _ m hm => ?_⟩
    rw [htakes.entryAt?]
    split
    · rfl
    · rename_i hne
      obtain ⟨-, bare⟩ := htakes
      exact bare m hm hne

end Build

end IdlCompiler
