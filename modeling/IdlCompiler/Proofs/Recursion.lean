/-
# Recursive fields as chains of records

A field is boxed if the type that it refers to leads back to the record of the field.  The
search that finds this out is bounded in depth; the search that it stands for goes on until
everything has been visited.  This file has two statements about it.

* `Resolved.existsUnique_searches`: without any bound the search comes to an end with one
  result, whatever the references between the types are.  `Resolved.searches_reaches` adds
  that the bound never cuts it short.
* `Protocol.needsBox_iff_exists_chain`: in a protocol that passes the check, the search
  succeeds exactly if there is a chain of types from the type that the field refers to down
  to the record of the field, in which every type has a field that refers to the next one.
-/
import IdlCompiler.Proofs.Contents
import Mathlib.Data.List.Chain

namespace IdlCompiler

open Relation

/-! ## Direct and optional references -/

namespace Schema

/-- A schema is a reference to a name, or the optional value of such a reference. -/
def IsReferenceTo (s : Schema) (n : String) : Prop :=
  s = .named n ∨ s = .union [.null, .named n] ∨ s = .union [.named n, .null]

theorem directReference?_eq_some_iff {s : Schema} {n : String} :
    s.directReference? = some n ↔ s.IsReferenceTo n := by
  constructor
  · intro h
    unfold directReference? at h
    split at h
    · exact .inl (congrArg _ (Option.some.inj h))
    · split at h
      · rename_i hinner
        obtain rfl := Option.some.inj h
        exact .inr (optionalInner?_eq_some_iff.1 hinner).2
      · cases h
  · rintro (rfl | rfl | rfl) <;> rfl

end Schema

namespace Resolved

variable {r : Resolved} {goal : String}

/-! ## The search without a bound -/

/-- The search for a goal without a bound on its depth: `r.Searches goal starts visited out`
says that the searches from `starts`, one after the other until one of them succeeds, end
with the result `out`, if the names `visited` have been visited before. -/
inductive Searches (r : Resolved) (goal : String) :
    List String → List String → Bool × List String → Prop
  /-- No start is left. -/
  | done (visited : List String) : Searches r goal [] visited (false, visited)
  /-- The start is the goal. -/
  | here (starts visited : List String) : Searches r goal (goal :: starts) visited (true, visited)
  /-- The start has been visited before. -/
  | seen {start : String} {starts visited : List String} {out : Bool × List String}
      (hne : start ≠ goal) (hseen : start ∈ visited) (hrest : Searches r goal starts visited out) :
      Searches r goal (start :: starts) visited out
  /-- The goal is found from the types that the start refers to. -/
  | found {start : String} {starts visited after : List String} (hne : start ≠ goal)
      (hnew : start ∉ visited)
      (hin : Searches r goal (r.successors start) (start :: visited) (true, after)) :
      Searches r goal (start :: starts) visited (true, after)
  /-- The goal is not found from the types that the start refers to. -/
  | missed {start : String} {starts visited after : List String} {out : Bool × List String}
      (hne : start ≠ goal) (hnew : start ∉ visited)
      (hin : Searches r goal (r.successors start) (start :: visited) (false, after))
      (hrest : Searches r goal starts after out) :
      Searches r goal (start :: starts) visited out

/-- The search has one result only. -/
theorem Searches.unique {starts visited : List String} {out out' : Bool × List String}
    (h : r.Searches goal starts visited out) (h' : r.Searches goal starts visited out') :
    out = out' := by
  induction h generalizing out' with
  | done visited => cases h'; rfl
  | here starts visited =>
    cases h' with
    | here => rfl
    | seen hne | found hne | missed hne => exact absurd rfl hne
  | seen hne hseen _ ih =>
    cases h' with
    | here => exact absurd rfl hne
    | seen _ _ hrest => exact ih hrest
    | found _ hnew | missed _ hnew => exact absurd hseen hnew
  | found hne hnew _ ih =>
    cases h' with
    | here => exact absurd rfl hne
    | seen _ hseen => exact absurd hseen hnew
    | found _ _ hin => exact ih hin
    | missed _ _ hin => exact absurd (ih hin) (by simp)
  | missed hne hnew _ _ ihin ihrest =>
    cases h' with
    | here => exact absurd rfl hne
    | seen _ hseen => exact absurd hseen hnew
    | found _ _ hin => exact absurd (ihin hin) (by simp)
    | missed _ _ hin hrest =>
      obtain ⟨-, rfl⟩ := Prod.mk.inj (ihin hin)
      exact ihrest hrest

/-- A search forgets none of the names that have been visited. -/
theorem Searches.subset {starts visited : List String} {out : Bool × List String}
    (h : r.Searches goal starts visited out) : visited ⊆ out.2 := by
  induction h with
  | done | here => exact List.Subset.refl _
  | seen _ _ _ ih => exact ih
  | found _ _ _ ih => exact List.Subset.trans (List.subset_cons_self _ _) ih
  | missed _ _ _ _ ihin ihrest =>
    exact List.Subset.trans (List.Subset.trans (List.subset_cons_self _ _) ihin) ihrest

theorem Searches.true_cons {start : String} {visited after : List String}
    (h : r.Searches goal [start] visited (true, after)) (starts : List String) :
    r.Searches goal (start :: starts) visited (true, after) := by
  cases h with
  | here => exact .here _ _
  | seen _ _ hrest => cases hrest
  | found hne hnew hin => exact .found hne hnew hin
  | missed _ _ _ hrest => cases hrest

theorem Searches.false_cons {start : String} {starts visited after : List String}
    {out : Bool × List String} (h : r.Searches goal [start] visited (false, after))
    (hrest : r.Searches goal starts after out) :
    r.Searches goal (start :: starts) visited out := by
  cases h with
  | seen hne hseen hend =>
    cases hend
    exact .seen hne hseen hrest
  | missed hne hnew hin hend =>
    cases hend
    exact .missed hne hnew hin hrest

/-- Searches from several starts, each of which does what the unbounded search does. -/
theorem searches_searchAny {search : String → List String → Bool × List String}
    {starts : List String} {bound : Nat}
    (hsearch : ∀ s ∈ starts, ∀ v, r.unvisited v < bound → r.Searches goal [s] v (search s v))
    {visited : List String} (hbound : r.unvisited visited < bound) :
    r.Searches goal starts visited (searchAny search starts visited) := by
  induction starts generalizing visited with
  | nil => exact .done visited
  | cons s starts ih =>
    have hfirst := hsearch s (by simp) visited hbound
    rw [searchAny]
    split
    · rename_i after hs
      exact (hs ▸ hfirst).true_cons starts
    · rename_i after hs
      rw [hs] at hfirst
      -- the next search has at most as many types left as this one
      have hless := Nat.lt_of_le_of_lt (unvisited_le_of_subset hfirst.subset) hbound
      exact hfirst.false_cons (ih (fun s' hs' => hsearch s' (List.mem_cons_of_mem _ hs')) hless)

/-- A search that is allowed to go deeper than there are types left does what the unbounded
search does. -/
theorem searches_reaches {depth : Nat} {start : String} {visited : List String}
    (hstart : start ∈ r.fullNames) (hdepth : r.unvisited visited < depth) :
    r.Searches goal [start] visited (r.reaches goal depth start visited) := by
  induction depth generalizing start visited with
  | zero => omega
  | succ depth ih =>
    rw [reaches]
    by_cases hgoal : start = goal
    · subst hgoal
      rw [if_pos rfl]
      exact .here _ _
    by_cases hseen : start ∈ visited
    · rw [if_neg hgoal, if_pos (by simpa using hseen)]
      exact .seen hgoal hseen (.done visited)
    rw [if_neg hgoal, if_neg (by simpa using hseen)]
    have hless : r.unvisited (start :: visited) < depth := by
      have := unvisited_cons_lt hstart hseen
      omega
    have hin : r.Searches goal (r.successors start) (start :: visited)
        (searchAny (r.reaches goal depth) (r.successors start) (start :: visited)) :=
      searches_searchAny (fun s hs v hv => ih (mem_fullNames_of_leads hs) hv) hless
    generalize searchAny (r.reaches goal depth) (r.successors start) (start :: visited) = out at hin
    obtain ⟨found, after⟩ := out
    cases found with
    | true => exact .found hgoal hseen hin
    | false => exact .missed hgoal hseen hin (.done after)

/-- **The search comes to an end.**  From any starts and with any names visited the unbounded
search has exactly one result, whatever the references between the types are. -/
theorem existsUnique_searches (r : Resolved) (goal : String) (starts visited : List String) :
    ∃! out, r.Searches goal starts visited out := by
  refine existsUnique_of_exists_of_unique ?_ fun _ _ h h' => h.unique h'
  induction starts generalizing visited with
  | nil => exact ⟨_, .done visited⟩
  | cons start starts ih =>
    by_cases hgoal : start = goal
    · subst hgoal
      exact ⟨_, .here starts visited⟩
    by_cases hseen : start ∈ visited
    · obtain ⟨out, hrest⟩ := ih visited
      exact ⟨out, .seen hgoal hseen hrest⟩
    -- what the start refers to are names of types, from which the bounded search ends
    obtain ⟨out, hin⟩ : ∃ out, r.Searches goal (r.successors start) (start :: visited) out :=
      ⟨_, searches_searchAny (fun s hs v hv => searches_reaches (mem_fullNames_of_leads hs) hv)
        (Nat.lt_succ_self _)⟩
    obtain ⟨found, after⟩ := out
    cases found with
    | true => exact ⟨_, .found hgoal hseen hin⟩
    | false =>
      obtain ⟨out, hrest⟩ := ih after
      exact ⟨out, .missed hgoal hseen hin hrest⟩

/-! ## Chains of types -/

/-- The type `t` is a record with a field that refers to the type `u`, directly or as an
optional value. -/
def RefersTo (r : Resolved) (t u : ResolvedType) : Prop :=
  ∃ isError fields, t.body = .record isError fields ∧ ∃ f ∈ fields, ∃ n,
    f.schema.IsReferenceTo n ∧ r.getType? n = some u

theorem RefersTo.mem_types {t u : ResolvedType} (h : r.RefersTo t u) : u ∈ r.types := by
  obtain ⟨_, _, _, _, _, _, _, hget⟩ := h
  exact getType?_mem hget

/-- The full names that a type leads to are those of the types that it refers to. -/
theorem mem_successors_iff {t : ResolvedType} (h : r.named? t.fullName = some t) (name : String) :
    name ∈ r.successors t.fullName ↔ ∃ u, r.RefersTo t u ∧ u.fullName = name := by
  rw [successors, h, Option.map_some]
  constructor
  · intro hname
    split at hname
    · rename_i isError fields hbody
      obtain ⟨f, hf, hf'⟩ := List.mem_filterMap.1 hname
      obtain ⟨u, hu, rfl⟩ := Option.map_eq_some_iff.1 hf'
      obtain ⟨n, hn, hu⟩ := Option.bind_eq_some_iff.1 hu
      exact ⟨u, ⟨isError, fields, Option.some.inj hbody, f, hf, n,
        Schema.directReference?_eq_some_iff.1 hn, hu⟩, rfl⟩
    · cases hname
  · rintro ⟨u, ⟨isError, fields, hbody, f, hf, n, hn, hu⟩, rfl⟩
    rw [hbody]
    exact List.mem_filterMap.2 ⟨f, hf, by simp [Schema.directReference?_eq_some_iff.2 hn, hu]⟩

end Resolved

namespace Protocol

variable {p : Protocol}

/-- The types of a well-formed protocol are found under their full names. -/
theorem WellFormed.named?_of_mem_types (hp : p.WellFormed) {t : ResolvedType}
    (ht : t ∈ (Resolved.ofProtocol p).types) :
    (Resolved.ofProtocol p).named? t.fullName = some t := by
  obtain ⟨u, hu, rfl⟩ := List.mem_map.1 ht
  exact hp.named?_fullNameOf hu

/-- The ways between full names are the ways between types. -/
theorem WellFormed.reflTransGen_leads_iff (hp : p.WellFormed) {t : ResolvedType}
    (ht : t ∈ (Resolved.ofProtocol p).types) {name : String} :
    ReflTransGen (Resolved.ofProtocol p).Leads t.fullName name ↔
      ∃ u, ReflTransGen (Resolved.ofProtocol p).RefersTo t u ∧ u.fullName = name := by
  constructor
  · intro hway
    induction hway with
    | refl => exact ⟨t, .refl, rfl⟩
    | tail _ hstep ih =>
      obtain ⟨u, hu, rfl⟩ := ih
      -- every type on the way is one of the protocol
      have hmem : u ∈ (Resolved.ofProtocol p).types := by
        cases hu with
        | refl => exact ht
        | tail _ hlast => exact hlast.mem_types
      obtain ⟨v, hv, hname⟩ :=
        (Resolved.mem_successors_iff (hp.named?_of_mem_types hmem) _).1 hstep
      exact ⟨v, hu.tail hv, hname⟩
  · rintro ⟨u, hway, rfl⟩
    induction hway using ReflTransGen.head_induction_on with
    | refl => exact .refl
    | head hstep _ ih =>
      refine .head ?_ (ih hstep.mem_types)
      exact (Resolved.mem_successors_iff (hp.named?_of_mem_types ht) _).2 ⟨_, hstep, rfl⟩

/-- **A field is boxed exactly if its type leads back to the record.**  In a protocol that
passes the check, the schema has to refer to a type `t`, directly or as an optional value,
and a chain of types has to lead from `t` to the owner, in which every type but the last is
a record with a field that refers to the next type.  The search behind it comes to an end
without its bound, from any starts in any resolved protocol, and the bound does not change
its result. -/
theorem needsBox_iff_exists_chain (h : p.validate = .ok ()) (owner : String) (schema : Schema) :
    ((Resolved.ofProtocol p).needsBox owner schema = true ↔
      ∃ n t, schema.IsReferenceTo n ∧ (Resolved.ofProtocol p).getType? n = some t ∧
        ∃ chain : List ResolvedType, (t :: chain).IsChain (Resolved.ofProtocol p).RefersTo ∧
          ((t :: chain).getLast (List.cons_ne_nil t chain)).fullName = owner) ∧
      (∀ (r : Resolved) (goal : String) (starts visited : List String),
        ∃! out, r.Searches goal starts visited out) ∧
      ∀ (r : Resolved) (goal : String), ∀ t ∈ r.types,
        r.Searches goal [t.fullName] [] (r.reaches goal (r.types.length + 1) t.fullName []) := by
  have hp := validate_eq_ok_iff.1 h
  refine ⟨?_, Resolved.existsUnique_searches, fun r goal t ht => ?_⟩
  · rw [Resolved.needsBox_iff]
    refine exists_congr fun n => exists_congr fun t => ?_
    rw [Schema.directReference?_eq_some_iff]
    refine and_congr_right fun _ => and_congr_right fun hget => ?_
    rw [hp.reflTransGen_leads_iff (Resolved.getType?_mem hget)]
    constructor
    · rintro ⟨u, hway, hname⟩
      obtain ⟨chain, hchain, rfl⟩ := List.exists_isChain_cons_of_relationReflTransGen hway
      exact ⟨chain, hchain, hname⟩
    · rintro ⟨chain, hchain, hname⟩
      exact ⟨_, List.relationReflTransGen_of_exists_isChain_cons chain hchain rfl, hname⟩
  · exact Resolved.searches_reaches (List.mem_map_of_mem ht) Resolved.unvisited_nil_lt

/-- Two records that refer to each other, and a record outside of their ring. -/
def rings : Protocol :=
  (empty "Rings" (some "org")).addTypes
    [{ name := "Left"
       body := .record false [{ name := "right", schema := .union [.null, .named "Right"] }] },
      { name := "Right", body := .record false [{ name := "left", schema := .named "Left" }] },
      { name := "Pair", body := .record false [{ name := "left", schema := .named "Left" }] }]

/-- The field of the first record is boxed, as the chain comes back to the record over the
second one. -/
theorem rings_needsBox :
    rings.validate = .ok () ∧
      (Resolved.ofProtocol rings).needsBox "org.Left" (.union [.null, .named "Right"]) = true := by
  have hleft : ∃ t, (Resolved.ofProtocol rings).getType? "Left" = some t ∧
      t.fullName = "org.Left" := ⟨_, rfl, rfl⟩
  obtain ⟨left, hget, hname⟩ := hleft
  refine ⟨rfl, (needsBox_iff_exists_chain rfl _ _).1.2
    ⟨"Right", _, .inr (.inl rfl), rfl, [left], .cons_cons ?_ (.singleton left), hname⟩⟩
  exact ⟨false, _, rfl, _, List.mem_singleton_self _, "Left", .inl rfl, hget⟩

/-- From the record outside the search goes around the ring once and fails. -/
example : (Resolved.ofProtocol rings).needsBox "org.Pair" (.named "Left") = false := by
  decide +kernel

end Protocol

end IdlCompiler
