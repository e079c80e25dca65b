/-
# Two ways to resolve a reference

A protocol resolves a reference through its lookup of full names, trying the namespace of
the protocol first.  A resolved protocol has a table of its own, into which simple names
and full names are entered in three passes.  This file compares the two.

They agree on every reference except one kind, `Protocol.IsShadowed`: a simple name that
stands for a type which writes out a namespace, while a type declared before it has the
same simple name.  Only types without a namespace of their own take a simple name from an
earlier type, so the earlier type keeps it.  The main statement,
`Protocol.fullName_getType?_eq_iff`, says that this is the only disagreement.
-/
import IdlCompiler.Proofs.Validity
import IdlCompiler.Resolved

namespace IdlCompiler

/-! ## Tables filled by a fold -/

namespace Table

variable {α : Type}

theorem find?_foldl_putNew (entries table : Table α) (key : String) :
    find? (entries.foldl (fun t e => t.putNew e.1 e.2) table) key =
      (find? table key).or (find? entries key) := by
  induction entries generalizing table with
  | nil => simp
  | cons e entries ih =>
    obtain ⟨k, a⟩ := e
    rw [List.foldl_cons, ih, find?_putNew, find?]
    by_cases h : k = key <;> simp [h]

theorem find?_append (table other : Table α) (key : String) :
    find? (table ++ other) key = (find? table key).or (find? other key) := by
  induction table with
  | nil => simp
  | cons e table ih =>
    obtain ⟨k, a⟩ := e
    by_cases h : k = key <;> simp [find?, h, ih]

theorem find?_foldl_put (entries table : Table α) (key : String) :
    find? (entries.foldl (fun t e => t.put e.1 e.2) table) key =
      (find? entries.reverse key).or (find? table key) := by
  induction entries generalizing table with
  | nil => simp
  | cons e entries ih =>
    obtain ⟨k, a⟩ := e
    rw [List.foldl_cons, ih, List.reverse_cons, find?_append, find?_put]
    by_cases h : k = key <;> simp [find?, h]

theorem find?_eq_none_iff {table : Table α} {key : String} :
    find? table key = none ↔ ∀ e ∈ table, e.1 ≠ key := by
  induction table with
  | nil => simp
  | cons e table ih =>
    obtain ⟨k, a⟩ := e
    by_cases h : k = key <;> simp [find?, h, ih]

theorem mem_of_find?_eq_some {table : Table α} {key : String} {a : α}
    (h : find? table key = some a) : (key, a) ∈ table := by
  induction table with
  | nil => simp at h
  | cons e table ih =>
    obtain ⟨k, b⟩ := e
    by_cases hk : k = key
    · simp_all [find?]
    · simp only [find?, hk, if_false] at h
      exact List.mem_cons_of_mem _ (ih h)

/-- In a table without hidden entries every entry is found. -/
theorem find?_eq_some_iff_mem {table : Table α} (hn : (table.map Prod.fst).Nodup) {key : String}
    {a : α} : find? table key = some a ↔ (key, a) ∈ table := by
  refine ⟨mem_of_find?_eq_some, fun h => ?_⟩
  cases hf : find? table key with
  | none => exact absurd rfl (find?_eq_none_iff.1 hf _ h)
  | some b =>
    have he := List.inj_on_of_nodup_map hn (mem_of_find?_eq_some hf) h rfl
    rw [(Prod.mk.inj he).2]

end Table

namespace Protocol

/-- The positions of full names that differ from each other are found in the lookup. -/
theorem find?_lookupOf_eq_some_iff {names : List String} (hn : names.Nodup) {key : String}
    {i : Nat} : (lookupOf names).find? key = some i ↔ names[i]? = some key := by
  have hkeys : (names.zipIdx.map Prod.fst).Nodup := by simpa [List.zipIdx_map_fst] using hn
  rw [lookupOf, Table.find?_foldl_putNew, Table.find?_nil, Option.none_or,
    Table.find?_eq_some_iff_mem hkeys, List.mem_zipIdx_iff_getElem?]

/-! ## The lookup that adding types makes -/

/-- Adds the types one after the other. -/
def addTypes (p : Protocol) (types : List NamedType) : Protocol := types.foldl addType p

/-- The lookup of a protocol is the one that adding its types one after the other makes. -/
def IsIndexed (p : Protocol) : Prop :=
  p.lookup = ((empty p.name p.space).addTypes p.types).lookup

theorem lookup_addTypes (p : Protocol) (types : List NamedType) :
    (p.addTypes types).lookup = ((types.map p.fullNameOf).zipIdx p.types.length).foldl
      (fun lookup entry => lookup.putNew entry.1 entry.2) p.lookup := by
  induction types generalizing p with
  | nil => rfl
  | cons t types ih =>
    have hname : (p.addType t).fullNameOf = p.fullNameOf := rfl
    have hlength : (p.addType t).types.length = p.types.length + 1 := by simp [addType]
    have h := ih (p.addType t)
    rw [hname, hlength] at h
    exact h

theorem isIndexed_iff {p : Protocol} :
    p.IsIndexed ↔ p.lookup = lookupOf (p.types.map p.fullNameOf) := by
  rw [IsIndexed, lookup_addTypes]
  rfl

/-! ## Full names of a well-formed protocol -/

end Protocol

namespace Name

theorem qualify_inj {space space' name name' : String} (hn : ¬ hasDot name)
    (hn' : ¬ hasDot name') (h : qualify space name = qualify space' name') :
    space = space' ∧ name = name' := by
  have toList : ∀ s n : String, (qualify s n).toList = s.toList ++ '.' :: n.toList := by
    simp [qualify]
  have last : ∀ s n : String, ¬ hasDot n →
      Text.splitLast? '.' (qualify s n).toList = some (s.toList, n.toList) := by
    intro s n hdot
    rw [toList]
    exact Text.splitLast?_append (by simpa [hasDot] using hdot)
  have hs := last space name hn
  rw [h, last space' name' hn'] at hs
  obtain ⟨h₁, h₂⟩ := Prod.mk.inj (Option.some.inj hs)
  exact ⟨(String.toList_inj.1 h₁).symm, (String.toList_inj.1 h₂).symm⟩

theorem hasDot_qualify (space name : String) : hasDot (qualify space name) := by
  simp [hasDot, qualify]

theorem not_hasDot_of_isIdentifier {name : String} (h : isIdentifier name) : ¬ hasDot name := by
  have hall := ((isIdentifierChars_iff _).1 h).2
  intro hdot
  exact absurd (hall '.' (by simpa [hasDot] using hdot)) (by decide)

theorem ne_empty_of_isDotted {space : String} (h : isDotted space) : space ≠ "" := by
  rintro rfl
  exact absurd h (by decide)

end Name

namespace Protocol

variable {p : Protocol} {t u : NamedType} {reference : String}

/-- The full name of a type is its simple name, if neither the type nor the protocol has a
namespace, or else the simple name inside the namespace. -/
theorem WellFormed.fullNameOf_eq (hp : p.WellFormed) (ht : t ∈ p.types) :
    p.fullNameOf t = match t.space.or p.space with
      | some space => Name.qualify space t.name
      | none => t.name := by
  rw [fullNameOf, NamedType.fullName]
  cases hor : t.space.or p.space with
  | none => rfl
  | some space =>
    have hdotted : Name.isDotted space := by
      cases hs : t.space with
      | none => exact hp.isDotted space (by simpa [hs] using hor)
      | some s => exact (hp.types t ht).isDotted space (by simpa [hs] using hor)
    simp [Name.ne_empty_of_isDotted hdotted]

theorem WellFormed.not_hasDot_name (hp : p.WellFormed) (ht : t ∈ p.types) :
    ¬ Name.hasDot t.name :=
  Name.not_hasDot_of_isIdentifier (hp.types t ht).isIdentifier

/-- Types with one full name are the same type. -/
theorem WellFormed.eq_of_fullNameOf_eq (hp : p.WellFormed) (ht : t ∈ p.types) (hu : u ∈ p.types)
    (h : p.fullNameOf t = p.fullNameOf u) : t = u :=
  List.inj_on_of_nodup_map hp.nodup_types ht hu h

/-- What the lookup finds under a full name. -/
theorem WellFormed.find?_lookup_iff (hp : p.WellFormed) (hi : p.IsIndexed) {key : String}
    {i : Nat} : p.lookup.find? key = some i ↔ ∃ t, p.types[i]? = some t ∧ p.fullNameOf t = key := by
  rw [isIndexed_iff.1 hi, find?_lookupOf_eq_some_iff hp.nodup_types, List.getElem?_map,
    Option.map_eq_some_iff]

/-- A reference stands for a type through the namespace of the protocol, or as it is. -/
theorem WellFormed.fullNameOf_of_getType? (hp : p.WellFormed) (hi : p.IsIndexed)
    (h : p.getType? reference = some t) :
    t ∈ p.types ∧
      ((¬ Name.hasDot reference ∧ ∃ space ∈ p.space,
          p.fullNameOf t = Name.qualify space reference) ∨
        (p.fullNameOf t = reference ∧ (¬ Name.hasDot reference → ∀ space ∈ p.space,
          ∀ u ∈ p.types, p.fullNameOf u ≠ Name.qualify space reference))) := by
  obtain ⟨i, hres, hget⟩ := Option.bind_eq_some_iff.1 h
  refine ⟨List.mem_of_getElem? hget, ?_⟩
  have found : ∀ key, p.lookup.find? key = some i → p.fullNameOf t = key := by
    intro key hkey
    obtain ⟨u, hu, hname⟩ := (hp.find?_lookup_iff hi).1 hkey
    rw [hget] at hu
    exact Option.some.inj hu ▸ hname
  unfold resolve? at hres
  split at hres
  · rename_i hdot
    exact Or.inr ⟨found _ hres, fun hn => absurd hdot hn⟩
  · rename_i hdot
    split at hres
    · rename_i hnone
      exact Or.inr ⟨found _ hres, fun _ space hspace => by simp [hnone] at hspace⟩
    · rename_i space hspace
      -- the name as it is only counts if the name in the namespace is not found
      rcases Option.or_eq_some_iff.1 hres with hq | ⟨hq, hplain⟩
      · exact Or.inl ⟨by simpa using hdot, space, hspace, found _ hq⟩
      · refine Or.inr ⟨found _ hplain, fun _ s hs u hu hname => ?_⟩
        obtain rfl : space = s := by simpa [hspace] using hs
        obtain ⟨j, hj⟩ := List.getElem?_of_mem hu
        have := (hp.find?_lookup_iff hi).2 ⟨u, hj, hname⟩
        rw [hq] at this
        cases this

/-! ## What the resolved protocol finds -/

/-- The full names of types lead back to the types. -/
theorem WellFormed.named?_fullNameOf (hp : p.WellFormed) (ht : t ∈ p.types) :
    (Resolved.ofProtocol p).named? (p.fullNameOf t) = some (.ofType p t) := by
  obtain ⟨i, hi⟩ := List.getElem?_of_mem ht
  have hkeys : ((p.types.map p.fullNameOf).zipIdx.reverse.map Prod.fst).Nodup := by
    simpa [List.zipIdx_map_fst] using hp.nodup_types
  have hindex : (Resolved.indexOf (p.types.map p.fullNameOf)).find? (p.fullNameOf t) = some i := by
    rw [Resolved.indexOf, Table.find?_foldl_put, Table.find?_nil, Option.or_none,
      Table.find?_eq_some_iff_mem hkeys]
    simp [List.mem_zipIdx_iff_getElem?, hi]
  simp [Resolved.named?, Resolved.ofProtocol, hindex, hi]

/-- After the first pass a full name stands for itself, and a simple name for the first
type that has it. -/
theorem find?_foldl_enterNames (types : List NamedType) (references : Table String)
    (key : String) :
    (types.foldl (Resolved.enterNames p) references).find? key =
      if key ∈ types.map p.fullNameOf then some key
      else (references.find? key).or
        ((types.find? fun t => t.name = key).map p.fullNameOf) := by
  induction types generalizing references with
  | nil => simp
  | cons t types ih =>
    rw [List.foldl_cons, ih, Resolved.enterNames, Table.find?_put, Table.find?_putNew]
    by_cases hmem : key ∈ types.map p.fullNameOf
    · simp [hmem]
    by_cases hfull : p.fullNameOf t = key
    · simp [hmem, hfull]
    by_cases hname : t.name = key <;> simp [hmem, hfull, Ne.symm hfull, hname]

/-- The second pass changes the names of types without a namespace of their own. -/
theorem find?_foldl_enterOwnName (types : List NamedType) (references : Table String)
    (key : String) :
    (types.foldl (Resolved.enterOwnName p) references).find? key =
      ((types.reverse.find? fun t => t.space.isNone ∧ t.name = key).map p.fullNameOf).or
        (references.find? key) := by
  induction types generalizing references with
  | nil => simp
  | cons t types ih =>
    rw [List.foldl_cons, ih, List.reverse_cons, List.find?_append, Resolved.enterOwnName]
    cases hs : t.space with
    | some space => simp [hs]
    | none =>
      by_cases hname : t.name = key <;>
        simp [hs, hname, Table.find?_put]

/-- What a reference stands for in the table of references is the full name of a type, which is the
reference itself or belongs to a type that has the reference for its simple name. -/
theorem exists_of_find?_referencesOf {full : String}
    (h : (Resolved.referencesOf p).find? reference = some full) :
    ∃ u ∈ p.types, p.fullNameOf u = full ∧ (u.name = reference ∨ full = reference) := by
  rw [Resolved.referencesOf, find?_foldl_enterOwnName, find?_foldl_enterNames] at h
  rcases Option.or_eq_some_iff.1 h with h | ⟨-, h⟩
  · obtain ⟨u, hu, hfull⟩ := Option.map_eq_some_iff.1 h
    have hown : u.space.isNone ∧ u.name = reference := by simpa using List.find?_some hu
    exact ⟨u, by simpa using List.mem_of_find?_eq_some hu, hfull, .inl hown.2⟩
  · split at h
    · rename_i hmem
      obtain ⟨u, hu, hfull⟩ := List.mem_map.1 hmem
      exact ⟨u, hu, hfull.trans (Option.some.inj h), .inr (Option.some.inj h).symm⟩
    · obtain ⟨u, hu, hfull⟩ := Option.map_eq_some_iff.1 (by simpa using h)
      exact ⟨u, List.mem_of_find?_eq_some hu, hfull, .inl (by simpa using List.find?_some hu)⟩

/-- The full name of the type that the resolved protocol finds is the one that its table
of references has. -/
theorem WellFormed.fullName_getType? (hp : p.WellFormed) (reference : String) :
    ((Resolved.ofProtocol p).getType? reference).map ResolvedType.fullName =
      (Resolved.referencesOf p).find? reference := by
  rw [Resolved.getType?]
  change (((Resolved.referencesOf p).find? reference).bind _).map _ = _
  cases h : (Resolved.referencesOf p).find? reference with
  | none => rfl
  | some full =>
    obtain ⟨u, hu, rfl, -⟩ := exists_of_find?_referencesOf h
    simp [hp.named?_fullNameOf hu, ResolvedType.ofType]

/-! ## Where the two agree -/

/-- The type that a simple name stands for is shadowed in the resolved protocol: it writes
out its namespace, and a type declared before it has the same simple name. -/
def IsShadowed (p : Protocol) (reference : String) (t : NamedType) : Prop :=
  ¬ Name.hasDot reference ∧ t.space.isSome ∧
    ∃ before behind, p.types = before ++ t :: behind ∧ ∃ u ∈ before, u.name = reference

/-- A type with a namespace of its own or of its protocol has a dot in its full name. -/
theorem WellFormed.hasDot_fullNameOf (hp : p.WellFormed) (ht : t ∈ p.types)
    (hs : (t.space.or p.space).isSome) : Name.hasDot (p.fullNameOf t) := by
  obtain ⟨space, hspace⟩ := Option.isSome_iff_exists.1 hs
  rw [hp.fullNameOf_eq ht, hspace]
  exact Name.hasDot_qualify space t.name

/-- A type whose full name is a simple name in the namespace of the protocol has this simple
name. -/
theorem WellFormed.name_eq_of_qualify (hp : p.WellFormed) (ht : t ∈ p.types)
    (hdot : ¬ Name.hasDot reference) {space : String} (hs : space ∈ p.space)
    (h : p.fullNameOf t = Name.qualify space reference) : t.name = reference := by
  have hfull := hp.fullNameOf_eq ht
  cases hor : t.space.or p.space with
  | none => simp [Option.mem_def.1 hs] at hor
  | some own =>
    rw [hor, h] at hfull
    exact (Name.qualify_inj hdot (hp.not_hasDot_name ht) hfull).2.symm

/-- Every reference that stands for a type is found in the resolved protocol. -/
theorem WellFormed.isSome_getType? (hp : p.WellFormed) (hi : p.IsIndexed)
    (h : p.hasType reference) : ((Resolved.ofProtocol p).getType? reference).isSome := by
  obtain ⟨i, hres⟩ := Option.isSome_iff_exists.1 h
  obtain ⟨t, hget⟩ : ∃ t, p.types[i]? = some t := by
    have found : ∀ key, p.lookup.find? key = some i → ∃ t, p.types[i]? = some t := by
      intro key hkey
      obtain ⟨t, ht, -⟩ := (hp.find?_lookup_iff hi).1 hkey
      exact ⟨t, ht⟩
    unfold resolve? at hres
    split at hres
    · exact found _ hres
    · split at hres
      · exact found _ hres
      · rcases Option.or_eq_some_iff.1 hres with hq | ⟨-, hq⟩ <;> exact found _ hq
  have ht : p.getType? reference = some t := by simp [getType?, hres, hget]
  obtain ⟨hmem, hfull⟩ := hp.fullNameOf_of_getType? hi ht
  rw [← Option.isSome_map (f := ResolvedType.fullName), hp.fullName_getType?,
    Resolved.referencesOf, find?_foldl_enterOwnName, find?_foldl_enterNames, Option.isSome_or]
  rcases hfull with ⟨hdot, space, hs, hq⟩ | ⟨hq, -⟩
  · have hname := hp.name_eq_of_qualify hmem hdot hs hq
    have hfind : (p.types.find? fun u => u.name = reference).isSome := by
      rw [List.find?_isSome]
      exact ⟨t, hmem, by simpa using hname⟩
    split <;> simp [hfind]
  · simp [List.mem_map.2 ⟨t, hmem, hq⟩]

/-- A type without a namespace of its own whose simple name is the reference is the one
that the reference stands for. -/
theorem WellFormed.eq_of_space_eq_none (hp : p.WellFormed) (hi : p.IsIndexed)
    (h : p.getType? reference = some t) (hu : u ∈ p.types) (hspace : u.space = none)
    (hname : u.name = reference) : t = u := by
  subst hname
  have hdot := hp.not_hasDot_name hu
  have hfull := hp.fullNameOf_eq hu
  rw [hspace, Option.none_or] at hfull
  obtain ⟨ht, ⟨-, space, hs, hq⟩ | ⟨hq, hother⟩⟩ := hp.fullNameOf_of_getType? hi h
  · rw [Option.mem_def.1 hs] at hfull
    exact hp.eq_of_fullNameOf_eq ht hu (hq.trans hfull.symm)
  · cases hs : p.space with
    | none =>
      rw [hs] at hfull
      exact hp.eq_of_fullNameOf_eq ht hu (hq.trans hfull.symm)
    | some space =>
      rw [hs] at hfull
      exact absurd hfull (hother hdot space hs u hu)

/-- In a list without repetitions an element is the first one with a property exactly if no
element before it has the property. -/
theorem find?_eq_some_iff_of_nodup {α : Type} {l : List α} {q : α → Bool} {a : α}
    (hn : l.Nodup) (ha : a ∈ l) (hq : q a) : l.find? q = some a ↔
      ¬ ∃ before behind, l = before ++ a :: behind ∧ ∃ b ∈ before, q b := by
  obtain ⟨before, behind, rfl⟩ := List.append_of_mem ha
  obtain ⟨-, hn', hdisjoint⟩ := List.nodup_append.1 hn
  have hbefore : a ∉ before := fun hin => hdisjoint a hin a (by simp) rfl
  have hbehind : a ∉ behind := (List.nodup_cons.1 hn').1
  constructor
  · rintro hfind ⟨before', behind', hl, b, hb, hqb⟩
    -- the element stands at one place only
    obtain ⟨rfl, -, -⟩ := (List.append_cons_inj_of_notMem hbefore hbehind).1 hl
    obtain ⟨c, hc⟩ := Option.isSome_iff_exists.1 (List.find?_isSome.2 ⟨b, hb, hqb⟩)
    rw [List.find?_append, hc] at hfind
    obtain rfl : c = a := Option.some.inj hfind
    exact hbefore (List.mem_of_find?_eq_some hc)
  · intro hfirst
    have hnone : before.find? q = none :=
      List.find?_eq_none.2 fun b hb hqb => hfirst ⟨before, behind, rfl, b, hb, hqb⟩
    simp [List.find?_append, hnone, hq]

/-- The type `t` with a simple name is the first one with this name exactly if no type before
it has the name. -/
theorem WellFormed.find?_name_eq_iff (hp : p.WellFormed) (ht : t ∈ p.types)
    (hname : t.name = reference) :
    (p.types.find? fun u => u.name = reference).map p.fullNameOf = some (p.fullNameOf t) ↔
      ¬ ∃ before behind, p.types = before ++ t :: behind ∧ ∃ u ∈ before, u.name = reference := by
  have hfirst := find?_eq_some_iff_of_nodup (q := fun u => u.name = reference)
    hp.nodup_types.of_map ht (by simpa using hname)
  simp only [decide_eq_true_eq] at hfirst
  rw [← hfirst, Option.map_eq_some_iff]
  constructor
  · rintro ⟨u, hfind, hfull⟩
    obtain rfl := hp.eq_of_fullNameOf_eq (List.mem_of_find?_eq_some hfind) ht hfull
    exact hfind
  · exact fun hfind => ⟨t, hfind, rfl⟩

/-- **Resolution agrees except where a type is shadowed.**  If a reference stands for a type
of a well-formed protocol, the resolved protocol finds a type with the same full name
exactly if the type is not shadowed. -/
theorem fullName_getType?_eq_iff (hvalid : p.validate = .ok ()) (hindexed : p.IsIndexed)
    (ht : p.getType? reference = some t) :
    ((Resolved.ofProtocol p).getType? reference).map ResolvedType.fullName =
        some (p.fullNameOf t) ↔ ¬ p.IsShadowed reference t := by
  have hp := validate_eq_ok_iff.1 hvalid
  obtain ⟨hmem, hfull⟩ := hp.fullNameOf_of_getType? hindexed ht
  rw [hp.fullName_getType?, Resolved.referencesOf, find?_foldl_enterOwnName,
    find?_foldl_enterNames]
  cases hown : p.types.reverse.find? fun u => u.space.isNone ∧ u.name = reference with
  | some u =>
    -- a type that takes the simple name in the second pass is the one that is meant
    have hu := List.find?_some hown
    simp only [Option.isNone_iff_eq_none, decide_eq_true_eq] at hu
    have hin : u ∈ p.types := by simpa using List.mem_of_find?_eq_some hown
    obtain rfl := hp.eq_of_space_eq_none hindexed ht hin hu.1 hu.2
    simp [IsShadowed, hu.1]
  | none =>
    have hspace : t.name = reference → t.space ≠ none := by
      intro hname hnone
      have := List.find?_eq_none.1 hown t (by simpa using hmem)
      simp [hnone, hname] at this
    rw [Option.map_none, Option.none_or, Table.find?_nil, Option.none_or]
    rcases hfull with ⟨hdot, space, hs, hq⟩ | ⟨hq, -⟩
    · -- the name was found in the namespace of the protocol, which the type writes out
      have hplain : reference ∉ p.types.map p.fullNameOf := by
        intro hin
        obtain ⟨u, hu, hname⟩ := List.mem_map.1 hin
        exact hdot (hname ▸ hp.hasDot_fullNameOf hu (by simp [Option.mem_def.1 hs]))
      have hname := hp.name_eq_of_qualify hmem hdot hs hq
      rw [if_neg hplain, hp.find?_name_eq_iff hmem hname]
      simp [IsShadowed, hdot, Option.isSome_iff_ne_none, hspace hname]
    · -- the reference is the full name of the type
      have hin : reference ∈ p.types.map p.fullNameOf := List.mem_map.2 ⟨t, hmem, hq⟩
      rw [if_pos hin, hq]
      refine ⟨fun _ hshadowed => ?_, fun _ => rfl⟩
      obtain ⟨hdot, hsome, -⟩ := hshadowed
      exact hdot (hq ▸ hp.hasDot_fullNameOf hmem (by simp [hsome]))

/-- Two types with one simple name, of which the later one writes out the namespace of the
protocol. -/
def twoNotes : Protocol :=
  (empty "Mail" (some "org")).addTypes
    [{ name := "Note", space := some "old", body := .fixed 8 },
      { name := "Note", space := some "org", body := .fixed 16 },
      { name := "Draft", body := .record false [{ name := "note", schema := .named "Note" }] }]

/-- The simple name stands for the later of the two types, and the resolved protocol finds
another one. -/
theorem twoNotes_disagree :
    twoNotes.validate = .ok () ∧
      (twoNotes.getType? "Note").map twoNotes.fullNameOf = some "org.Note" ∧
      ((Resolved.ofProtocol twoNotes).getType? "Note").map ResolvedType.fullName ≠
        some "org.Note" := by
  refine ⟨rfl, rfl, fun h => ?_⟩
  have hiff : _ ↔ ¬ twoNotes.IsShadowed "Note" _ := fullName_getType?_eq_iff rfl rfl rfl
  refine hiff.1 h ⟨by decide, rfl, [_], _, rfl, _, List.mem_singleton_self _, rfl⟩

end Protocol

end IdlCompiler
