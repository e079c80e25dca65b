/-
# What the lookup of a protocol finds

The lookup of full names stands beside the types of a protocol, and whoever holds a protocol may
change its types and its namespace without the lookup noticing.  This file follows a protocol
through any such history.  A history is settled if nothing but types were added since the start,
or since the lookup was made anew the last time; then the lookup is in step with the types.

Main statements: `IsIndexed.addType`, what one addition keeps; `isIndexed_of_isSettled`, what a
settled history leaves; `find?_lookupOf`, what is found where full names repeat; and
`getType?_eq_of_isSettled`.
-/
import IdlCompiler.Proofs.Conformance

namespace IdlCompiler

namespace Table

/-- In a table of the positions of keys, from `n` on, the first position of a key is found. -/
theorem find?_zipIdx (names : List String) (n : Nat) (key : String) :
    find? (names.zipIdx n) key = (names.findIdx? (· = key)).map (· + n) := by
  induction names generalizing n with
  | nil => rfl
  | cons name names ih =>
    rw [List.zipIdx_cons, find?, List.findIdx?_cons, ih]
    by_cases h : name = key
    · simp [h]
    · simp only [h, if_false, decide_false, Bool.false_eq_true, Option.map_map]
      congr 1
      funext i
      simp only [Function.comp_apply]
      omega

end Table

namespace Protocol

variable {p : Protocol} {reference full : String}

/-! ## Histories -/

/-- A change that a holder of a protocol may make to its types, its namespace or its lookup. -/
inductive Edit where
  /-- Adds a type. -/
  | addType (type : NamedType)
  /-- Changes the namespace. -/
  | setSpace (space : Option String)
  /-- Puts other types in the place of all types. -/
  | setTypes (types : List NamedType)
  /-- Makes the lookup anew. -/
  | buildLookup

/-- The protocol after a change. -/
def edit (p : Protocol) : Edit → Protocol
  | .addType t => p.addType t
  | .setSpace space => { p with space }
  | .setTypes types => { p with types }
  | .buildLookup => p.buildLookup

/-- The protocol after a history. -/
def editAll (p : Protocol) (history : List Edit) : Protocol := history.foldl edit p

/-- Tells whether a history is settled behind a change, by whether it was before. -/
def Edit.settles (settled : Bool) : Edit → Bool
  | .addType _ => settled
  | .setSpace _ | .setTypes _ => false
  | .buildLookup => true

/-- Tells whether a history is settled: since its start, or since the lookup was made anew, types
were added and nothing else. -/
def isSettled (history : List Edit) : Bool := history.foldl Edit.settles true

/-! ## The lookup in step with the types -/

theorem isIndexed_empty (name : String) (space : Option String) : (empty name space).IsIndexed :=
  rfl

theorem isIndexed_buildLookup (p : Protocol) : p.buildLookup.IsIndexed :=
  isIndexed_iff.2 rfl

/-- Adding a type keeps the lookup in step. -/
theorem IsIndexed.addType (h : p.IsIndexed) (t : NamedType) : (p.addType t).IsIndexed := by
  rw [IsIndexed] at h ⊢
  change p.lookup.putNew (p.fullNameOf t) p.types.length =
    ((empty p.name p.space).addTypes (p.types ++ [t])).lookup
  rw [h, lookup_addTypes, lookup_addTypes, List.map_append, List.zipIdx_append, List.foldl_append]
  simp [fullNameOf, empty]

/-- What one change does to the lookup. -/
theorem isIndexed_edit {settled : Bool} (h : settled → p.IsIndexed) (e : Edit) :
    e.settles settled → (p.edit e).IsIndexed := by
  intro hsettled
  cases e with
  | addType t => exact (h hsettled).addType t
  | setSpace space => exact absurd hsettled (by simp [Edit.settles])
  | setTypes types => exact absurd hsettled (by simp [Edit.settles])
  | buildLookup => exact isIndexed_buildLookup p

/-- A settled history leaves the lookup in step with the types. -/
theorem isIndexed_of_isSettled {history : List Edit} (hp : p.IsIndexed)
    (h : isSettled history) : (p.editAll history).IsIndexed := by
  -- the induction carries along whether the history so far is settled
  suffices run : ∀ (settled : Bool) (p : Protocol), (settled → p.IsIndexed) →
      history.foldl Edit.settles settled = true → (p.editAll history).IsIndexed from
    run true p (fun _ => hp) h
  clear h hp
  induction history with
  | nil => exact fun settled p hp hsettled => hp hsettled
  | cons e history ih => exact fun settled p hp => ih _ _ (isIndexed_edit hp e)

/-- Making the lookup anew changes nothing where it is in step. -/
theorem IsIndexed.buildLookup_eq (h : p.IsIndexed) : p.buildLookup = p := by
  rw [buildLookup, ← isIndexed_iff.1 h]

/-! ## What is found -/

/-- The position of the first type with a full name. -/
def position? (p : Protocol) (full : String) : Option Nat :=
  p.types.findIdx? fun t => p.fullNameOf t = full

/-- The first type with a full name. -/
def firstNamed? (p : Protocol) (full : String) : Option NamedType :=
  p.types.find? fun t => p.fullNameOf t = full

/-- What stands for a reference, by what stands for full names: the simple name in the namespace
of the protocol counts before the reference as it is. -/
def preferred {α : Type} (p : Protocol) (reference : String) (found : String → Option α) :
    Option α :=
  (if Name.hasDot reference then none
    else p.space.bind fun space => found (Name.qualify space reference)).or (found reference)

theorem firstNamed?_eq_bind (p : Protocol) (full : String) :
    p.firstNamed? full = (p.position? full).bind fun i => p.types[i]? :=
  List.find?_eq_bind_findIdx?_getElem?

theorem lt_length_of_position? {i : Nat} (h : p.position? full = some i) : i < p.types.length :=
  (List.findIdx?_eq_some_iff_getElem.1 h).1

/-- In the lookup of full names the first position of a name is found. -/
theorem find?_lookupOf (names : List String) (key : String) :
    (lookupOf names).find? key = names.findIdx? (· = key) := by
  rw [lookupOf, Table.find?_foldl_putNew, Table.find?_nil, Option.none_or, Table.find?_zipIdx]
  exact Option.map_id'

theorem IsIndexed.find?_lookup (h : p.IsIndexed) (full : String) :
    p.lookup.find? full = p.position? full := by
  rw [isIndexed_iff.1 h, find?_lookupOf, List.findIdx?_map]
  rfl

theorem IsIndexed.resolve?_eq (h : p.IsIndexed) (reference : String) :
    p.resolve? reference = p.preferred reference p.position? := by
  rw [resolve?, preferred]
  cases Name.hasDot reference with
  | true => simp [h.find?_lookup]
  | false => cases p.space <;> simp [h.find?_lookup]

/-- What is preferred may be looked up further before or after the choice, if what is found can
always be looked up. -/
theorem bind_preferred {α β : Type} {found : String → Option α} {f : α → Option β}
    (hf : ∀ full a, found full = some a → (f a).isSome) (reference : String) :
    (p.preferred reference found).bind f =
      p.preferred reference fun full => (found full).bind f := by
  rw [preferred, preferred]
  split
  · simp
  · cases hs : p.space with
    | none => simp
    | some space =>
      cases ha : found (Name.qualify space reference) with
      | none => simp [ha]
      | some a =>
        obtain ⟨b, hb⟩ := Option.isSome_iff_exists.1 (hf _ a ha)
        simp [ha, hb]

theorem IsIndexed.getType?_eq (h : p.IsIndexed) (reference : String) :
    p.getType? reference = p.preferred reference p.firstNamed? := by
  have hget (full : String) (i : Nat) (hi : p.position? full = some i) : p.types[i]?.isSome := by
    simpa using lt_length_of_position? hi
  rw [getType?, h.resolve?_eq, bind_preferred hget]
  exact congrArg (p.preferred reference) (funext fun full => (p.firstNamed?_eq_bind full).symm)

/-- A type is fresh if no type has its full name. -/
theorem IsIndexed.isFresh_iff (h : p.IsIndexed) (t : NamedType) :
    p.isFresh t ↔ ∀ u ∈ p.types, p.fullNameOf u ≠ p.fullNameOf t := by
  rw [isFresh, h.find?_lookup, position?]
  simp

/-- **The lookup of types is exact.**  After any history an addition appends its type.  If the
history is settled, then a reference stands for the first type that has it for its full name, or
before that for the first type whose full name is the reference in the namespace of the protocol,
if the reference has no dot; and the position that is found is one of the types.  A type is told to
be fresh exactly if no type has its full name.  The lookup is the one that adding the types one
after the other makes, and making it anew changes nothing. -/
theorem getType?_eq_of_isSettled (name : String) (space : Option String) (history : List Edit)
    {p : Protocol} (hp : p = (empty name space).editAll history) :
    (∀ t, (p.addType t).types = p.types ++ [t]) ∧
      (isSettled history →
        (∀ reference, p.getType? reference = p.preferred reference p.firstNamed?) ∧
          (∀ reference, p.resolve? reference = p.preferred reference p.position?) ∧
          (∀ reference, ∀ i ∈ p.resolve? reference, i < p.types.length) ∧
          (∀ t, p.isFresh t ↔ ∀ u ∈ p.types, p.fullNameOf u ≠ p.fullNameOf t) ∧
          p.lookup = ((empty p.name p.space).addTypes p.types).lookup ∧ p.buildLookup = p) := by
  refine ⟨fun _ => rfl, fun hsettled => ?_⟩
  have h : p.IsIndexed := hp ▸ isIndexed_of_isSettled (isIndexed_empty name space) hsettled
  exact ⟨h.getType?_eq, h.resolve?_eq, fun _ _ => h.lt_length_of_resolve?, h.isFresh_iff, h,
    h.buildLookup_eq⟩

/-- A history in which the types are exchanged, so that the positions in the lookup are wrong until
it is made anew, and full names repeat. -/
def reshuffling : List Edit :=
  [.addType { name := "Draft", body := .fixed 4 },
    .setSpace (some "mail"),
    .setTypes [{ name := "Note", body := .fixed 8 },
      { name := "Note", space := some "mail", body := .fixed 16 },
      { name := "Note", space := some "", body := .fixed 32 }],
    .buildLookup,
    .addType { name := "Note", body := .fixed 64 }]

/-- After the history a simple name stands for the first of three types with one full name. -/
theorem reshuffling_finds_first :
    isSettled reshuffling ∧
      (((empty "Mail" none).editAll reshuffling).getType? "Note").map NamedType.body =
        some (.fixed 8) := by
  have hsettled : isSettled reshuffling := by decide
  obtain ⟨hget, -⟩ := (getType?_eq_of_isSettled "Mail" none reshuffling rfl).2 hsettled
  exact ⟨hsettled, by rw [hget]; rfl⟩

end Protocol

end IdlCompiler
