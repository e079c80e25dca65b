/-
# The search for recursive fields

Whether a field is kept behind a pointer is decided by a search over the references between
records: depth first, with a list of the names visited so far that one branch of the search
hands on to the next.  The main statement, `Resolved.needsBox_iff`, says that the search
finds out what it is meant to find out: a field is boxed exactly if the type that it refers
to, directly or as an optional value, leads back to the record of the field.

The proof that nothing is missed looks at the names visited by a search that failed: none of
them is the goal, and they are closed under going on (`Explored`).
-/
import IdlCompiler.Resolved
import Mathlib.Data.List.Basic
import Mathlib.Logic.Relation
import Mathlib.Tactic.ByContra

namespace IdlCompiler

namespace Resolved

open Relation

variable (r : Resolved)

/-- The fields of the type `a` refer to the type `b`, directly or as an optional value. -/
def Leads (a b : String) : Prop := b ∈ r.successors a

/-- The full names of the types. -/
def fullNames : List String := r.types.map ResolvedType.fullName

/-- The number of types that have not been visited. -/
def unvisited (visited : List String) : Nat :=
  (r.fullNames.filter fun name => name ∉ visited).length

/-- From the names `visited` a failed search has come to the names `after`: nothing is
forgotten, and what is new is not the goal and only leads to names that are visited. -/
structure Explored (goal : String) (visited after : List String) : Prop where
  subset : visited ⊆ after
  ne_goal : ∀ name ∈ after, name ∉ visited → name ≠ goal
  closed : ∀ name ∈ after, name ∉ visited → ∀ next, r.Leads name next → next ∈ after

variable {r} {goal start : String} {visited after : List String}

theorem named?_mem {fullName : String} {t : ResolvedType} (h : r.named? fullName = some t) :
    t ∈ r.types := by
  obtain ⟨i, -, hi⟩ := Option.bind_eq_some_iff.1 h
  exact List.mem_of_getElem? hi

theorem getType?_mem {reference : String} {t : ResolvedType} (h : r.getType? reference = some t) :
    t ∈ r.types := by
  obtain ⟨full, -, hfull⟩ := Option.bind_eq_some_iff.1 h
  exact named?_mem hfull

theorem mem_fullNames_of_leads {a b : String} (h : r.Leads a b) : b ∈ r.fullNames := by
  unfold Leads successors at h
  split at h
  · obtain ⟨f, -, hf⟩ := List.mem_filterMap.1 h
    obtain ⟨t, ht, rfl⟩ := Option.map_eq_some_iff.1 hf
    obtain ⟨n, -, hn⟩ := Option.bind_eq_some_iff.1 ht
    exact List.mem_map_of_mem (getType?_mem hn)
  · cases h

theorem unvisited_cons_lt (hstart : start ∈ r.fullNames) (hnew : start ∉ visited) :
    r.unvisited (start :: visited) < r.unvisited visited := by
  have hsplit : r.fullNames.filter (fun name => name ∉ start :: visited) =
      (r.fullNames.filter fun name => name ∉ visited).filter fun name => name ≠ start := by
    rw [List.filter_filter]
    congr 1
    funext name
    by_cases h : name = start <;> simp [h]
  rw [unvisited, hsplit, unvisited, List.length_filter_lt_length_iff_exists]
  exact ⟨start, by simp [hstart, hnew], by simp⟩

theorem unvisited_le_of_subset (h : visited ⊆ after) : r.unvisited after ≤ r.unvisited visited := by
  refine List.Sublist.length_le (List.monotone_filter_right _ fun name hname => ?_)
  simp only [decide_eq_true_eq] at hname ⊢
  exact fun hin => hname (h hin)

theorem unvisited_nil_lt : r.unvisited [] < r.types.length + 1 := by
  have := List.length_filter_le (fun name => decide (name ∉ ([] : List String))) r.fullNames
  simp only [unvisited, fullNames, List.length_map] at this ⊢
  omega

/-! ## A search that succeeds -/

theorem exists_of_searchAny {search : String → List String → Bool × List String}
    {starts : List String} (h : (searchAny search starts visited).1 = true) :
    ∃ s ∈ starts, ∃ v, (search s v).1 = true := by
  induction starts generalizing visited with
  | nil => cases h
  | cons s starts ih =>
    rw [searchAny] at h
    split at h
    · rename_i hs
      exact ⟨s, by simp, visited, by rw [hs]⟩
    · obtain ⟨s', hs', v, hv⟩ := ih h
      exact ⟨s', List.mem_cons_of_mem _ hs', v, hv⟩

/-- A search that succeeds has found a way to the goal. -/
theorem leads_of_reaches {depth : Nat} (h : (r.reaches goal depth start visited).1 = true) :
    ReflTransGen r.Leads start goal := by
  induction depth generalizing start visited with
  | zero =>
    obtain rfl : start = goal := by simpa [reaches] using h
    exact .refl
  | succ depth ih =>
    rw [reaches] at h
    split at h
    · rename_i heq
      exact heq ▸ .refl
    · split at h
      · cases h
      · obtain ⟨next, hnext, v, hv⟩ := exists_of_searchAny h
        exact .head hnext (ih hv)

/-! ## A search that fails -/

theorem Explored.refl : Explored r goal visited visited :=
  ⟨List.Subset.refl _, fun _ h hn => absurd h hn, fun _ h hn => absurd h hn⟩

theorem Explored.trans {middle : List String} (h : Explored r goal visited middle)
    (h' : Explored r goal middle after) : Explored r goal visited after := by
  refine ⟨List.Subset.trans h.subset h'.subset, fun name hname hn => ?_,
    fun name hname hn next hnext => ?_⟩
  · by_cases hm : name ∈ middle
    · exact h.ne_goal name hm hn
    · exact h'.ne_goal name hname hm
  · by_cases hm : name ∈ middle
    · exact h'.subset (h.closed name hm hn next hnext)
    · exact h'.closed name hname hm next hnext

/-- What a search that started with nothing visited has explored is closed under ways. -/
theorem Explored.mem_of_leads {a b : String} (h : Explored r goal [] after)
    (hway : ReflTransGen r.Leads a b) (ha : a ∈ after) : b ∈ after := by
  induction hway with
  | refl => exact ha
  | tail _ hstep ih => exact h.closed _ ih (by simp) _ hstep

/-- Searches from several starts, each of which explores if it fails. -/
theorem explored_of_searchAny {search : String → List String → Bool × List String}
    {starts : List String} {bound : Nat}
    (hsearch : ∀ s ∈ starts, ∀ v v', r.unvisited v < bound → search s v = (false, v') →
      Explored r goal v v' ∧ s ∈ v')
    (hbound : r.unvisited visited < bound) (h : searchAny search starts visited = (false, after)) :
    Explored r goal visited after ∧ starts ⊆ after := by
  induction starts generalizing visited with
  | nil =>
    obtain rfl : visited = after := (Prod.mk.inj h).2
    exact ⟨.refl, by simp⟩
  | cons s starts ih =>
    rw [searchAny] at h
    split at h
    · cases (Prod.mk.inj h).1
    · rename_i middle hs
      obtain ⟨hfirst, hmem⟩ := hsearch s (by simp) visited middle hbound hs
      -- the next search has at most as many types left as this one
      have hless := Nat.lt_of_le_of_lt (unvisited_le_of_subset hfirst.subset) hbound
      obtain ⟨hrest, hsub⟩ := ih (fun s' hs' => hsearch s' (List.mem_cons_of_mem _ hs')) hless h
      exact ⟨hfirst.trans hrest, List.cons_subset.2 ⟨hrest.subset hmem, hsub⟩⟩

/-- A search that is allowed to go deeper than there are types left explores if it fails. -/
theorem explored_of_reaches {depth : Nat} (hstart : start ∈ r.fullNames)
    (hdepth : r.unvisited visited < depth)
    (h : r.reaches goal depth start visited = (false, after)) :
    Explored r goal visited after ∧ start ∈ after := by
  induction depth generalizing start visited after with
  | zero => omega
  | succ depth ih =>
    rw [reaches] at h
    split at h
    · cases (Prod.mk.inj h).1
    rename_i hne
    split at h
    · rename_i hseen
      obtain rfl : visited = after := (Prod.mk.inj h).2
      exact ⟨.refl, by simpa using hseen⟩
    · rename_i hnew
      have hnew : start ∉ visited := by simpa using hnew
      have hless : r.unvisited (start :: visited) < depth := by
        have := unvisited_cons_lt hstart hnew
        omega
      obtain ⟨hexp, hsub⟩ := explored_of_searchAny
        (fun s hs v v' hv hr => ih (mem_fullNames_of_leads hs) hv hr) hless h
      have hmem : start ∈ after := hexp.subset (by simp)
      -- the start is new too: it is not the goal, and what it leads to has been visited
      refine ⟨⟨fun name hname => hexp.subset (by simp [hname]), fun name hname hn => ?_,
        fun name hname hn next hnext => ?_⟩, hmem⟩
      · by_cases hs : name = start
        · exact hs ▸ hne
        · exact hexp.ne_goal name hname (by simp [hs, hn])
      · by_cases hs : name = start
        · exact hsub (hs ▸ hnext)
        · exact hexp.closed name hname (by simp [hs, hn]) next hnext

/-- A search that starts with nothing visited succeeds exactly if the start leads to the
goal. -/
theorem reaches_iff (hstart : start ∈ r.fullNames) :
    (r.reaches goal (r.types.length + 1) start []).1 = true ↔ ReflTransGen r.Leads start goal := by
  refine ⟨leads_of_reaches, fun hway => ?_⟩
  by_contra hfail
  obtain ⟨hexp, hmem⟩ := explored_of_reaches hstart unvisited_nil_lt
    (Prod.ext (by simpa using hfail) rfl : r.reaches goal _ start [] = (false, _))
  exact hexp.ne_goal goal (hexp.mem_of_leads hway hmem) (by simp) rfl

/-- **The search decides recursion.**  A field is boxed exactly if its schema refers directly
or as an optional value to a type that leads back to the record of the field. -/
theorem needsBox_iff {owner : String} {schema : Schema} :
    r.needsBox owner schema ↔ ∃ n t, schema.directReference? = some n ∧ r.getType? n = some t
      ∧ ReflTransGen r.Leads t.fullName owner := by
  rw [needsBox]
  cases h : schema.directReference?.bind r.getType? with
  | none =>
    simp only [Bool.false_eq_true, false_iff, not_exists, not_and]
    intro n t hn ht
    simp [hn, ht] at h
  | some t =>
    obtain ⟨n, hn, ht⟩ := Option.bind_eq_some_iff.1 h
    rw [reaches_iff (List.mem_map_of_mem (getType?_mem ht))]
    constructor
    · exact fun hway => ⟨n, t, hn, ht, hway⟩
    · rintro ⟨n', t', hn', ht', hway⟩
      obtain rfl : n = n' := Option.some.inj (hn.symm.trans hn')
      obtain rfl : t = t' := Option.some.inj (ht.symm.trans ht')
      exact hway

end Resolved

end IdlCompiler
