/-
# Names of the enums of one schema

Mapping a schema gives every union that is not an optional value an enum of its own.  The
name of the enum starts with the hint that the schema is mapped under, and goes on with an
ending that says where the union stands in the schema.  The main statements are

* `Target.map_name_mapSchema`: the names are the hint with each of the endings behind it;
* `Schema.HasPlainUnions.nodup_enumEndings`: the endings differ if no union has a union among its
  branches, or two sequences or two dictionaries, as is the case in a schema that a protocol allows;
* `Protocol.endsInside_of_mem_enumEndings`: an ending with characters ends with the word for
  the items of a sequence or the values of a dictionary.
-/
import IdlCompiler.Proofs.Conformance
import IdlCompiler.Proofs.Contents

namespace IdlCompiler

namespace Schema

/-- The word for a branch of a union in the names of the enums inside the branch.  The other
branches have no enums inside. -/
def branchWord : Schema → String
  | array _ => "Array"
  | map _ => "Map"
  | union _ => "Union"
  | _ => ""

mutual

/-- The endings of the names of the enums that a schema needs, inner enums first. -/
def enumEndings : Schema → List String
  | primitive _ | named _ => []
  | array items => (enumEndings items).map ("Item" ++ ·)
  | map values => (enumEndings values).map ("Value" ++ ·)
  | union branches =>
    if (union branches).optionalInner?.isSome then enumEndingsOfAll (fun _ => "") branches
    else enumEndingsOfAll branchWord branches ++ [""]
termination_by structural s => s

/-- The endings of the names of the enums that branches need behind a word for each branch. -/
def enumEndingsOfAll (word : Schema → String) : List Schema → List String
  | [] => []
  | s :: ss => (enumEndings s).map (word s ++ ·) ++ enumEndingsOfAll word ss
termination_by structural ss => ss

end

theorem enumEndingsOfAll_eq_flatMap (word : Schema → String) (ss : List Schema) :
    enumEndingsOfAll word ss = ss.flatMap fun s => s.enumEndings.map (word s ++ ·) := by
  induction ss with
  | nil => rfl
  | cons s ss ih => simp [enumEndingsOfAll, ih]

/-- An optional value needs the enums of the schema inside, under the same endings. -/
theorem enumEndings_of_optionalInner? {s inner : Schema} (h : s.optionalInner? = some inner) :
    s.enumEndings = inner.enumEndings := by
  obtain ⟨-, rfl | rfl⟩ := optionalInner?_eq_some_iff.1 h <;>
    simp [enumEndings, h, enumEndingsOfAll]

theorem enumEndings_of_optionalInner?_eq_none {branches : List Schema}
    (h : (union branches).optionalInner? = none) :
    (union branches).enumEndings =
      (branches.flatMap fun b => b.enumEndings.map (b.branchWord ++ ·)) ++ [""] := by
  simp [enumEndings, h, enumEndingsOfAll_eq_flatMap]

end Schema

/-! ## Names under a hint -/

namespace Target

variable (r : Resolved)

mutual

/-- The enums of a schema are named by the hint and the endings. -/
theorem map_name_mapSchema (hint : String) : (s : Schema) →
    (mapSchema r hint s).unions.map UnionDef.name = s.enumEndings.map (hint ++ ·)
  | .primitive _ => by simp [mapSchema, Schema.enumEndings]
  | .named _ => by simp [mapSchema, Schema.enumEndings]
  | .array items => by
    rw [mapSchema, Mapped.wrap, map_name_mapSchema (hint ++ "Item") items]
    simp [Schema.enumEndings, String.append_assoc]
  | .map values => by
    rw [mapSchema, Mapped.wrap, map_name_mapSchema (hint ++ "Value") values]
    simp [Schema.enumEndings, String.append_assoc]
  | .union branches => by
    rw [mapSchema]
    cases h : mapOptional? r hint branches with
    | some inner =>
      simpa [Mapped.wrap] using map_name_mapOptional? hint branches h
    | none =>
      have hinner : (Schema.union branches).optionalInner? = none := by
        simpa [mapOptional?_eq] using h
      rw [Schema.enumEndings_of_optionalInner?_eq_none hinner]
      simp [map_name_mapBranches hint branches, List.map_flatMap, String.append_assoc,
        Function.comp_def]

/-- The enums inside an optional value. -/
theorem map_name_mapOptional? (hint : String) : (branches : List Schema) → {m : Mapped} →
    mapOptional? r hint branches = some m →
      m.unions.map UnionDef.name = (Schema.union branches).enumEndings.map (hint ++ ·)
  | [a, b], m, h => by
    have ha := map_name_mapSchema hint a
    have hb := map_name_mapSchema hint b
    rw [mapOptional?_eq] at h
    obtain ⟨inner, hinner, rfl⟩ := Option.map_eq_some_iff.1 h
    rw [Schema.enumEndings_of_optionalInner? hinner]
    obtain ⟨-, hs | hs⟩ := Schema.optionalInner?_eq_some_iff.1 hinner <;>
      · injection hs with hs
        injections
        subst_vars
        assumption
  | [], _, h | [_], _, h | _ :: _ :: _ :: _, _, h => by simp [mapOptional?] at h

/-- The enums inside the branches of a union. -/
theorem map_name_mapBranches (hint : String) : (branches : List Schema) →
    (mapBranches r hint branches).2.map UnionDef.name =
      branches.flatMap fun b => b.enumEndings.map (hint ++ b.branchWord ++ ·)
  | [] => by simp [mapBranches]
  | b :: branches => by
    have hb := map_name_mapSchema (hint ++ branchName r b) b
    have hword : b.enumEndings.map (hint ++ branchName r b ++ ·) =
        b.enumEndings.map (hint ++ b.branchWord ++ ·) := by
      cases b <;> simp [branchName, Schema.branchWord, Schema.enumEndings]
    rw [mapBranches, List.flatMap_cons, ← map_name_mapBranches hint branches, ← hword, ← hb]
    by_cases hnull : b.isNull
    · obtain rfl := Schema.isNull_iff.1 hnull
      simp [hnull, mapSchema]
    · simp [hnull]

end

/-- Whether a field is boxed or not does not matter for the names of its enums. -/
theorem map_name_mapField (owner ownerName : String) (f : ResolvedField) :
    (mapField r owner ownerName f).unions.map UnionDef.name =
      f.schema.enumEndings.map (ownerName ++ Name.pascalCase f.name ++ ·) := by
  rw [mapField]
  split
  · split
    · rename_i inner hinner
      rw [Schema.enumEndings_of_optionalInner? hinner]
      exact map_name_mapSchema r _ inner
    · exact map_name_mapSchema r _ f.schema
  · exact map_name_mapSchema r _ f.schema

end Target

/-! ## The endings of one schema -/

/-- The name ends with the word for the items of a sequence or the values of a dictionary. -/
def EndsInside (name : String) : Prop := ∃ front, name = front ++ "Item" ∨ name = front ++ "Value"

theorem EndsInside.append {name : String} (h : EndsInside name) (front : String) :
    EndsInside (front ++ name) := by
  obtain ⟨middle, rfl | rfl⟩ := h
  · exact ⟨front ++ middle, .inl String.append_assoc.symm⟩
  · exact ⟨front ++ middle, .inr String.append_assoc.symm⟩

theorem EndsInside.getLast? {name : String} (h : EndsInside name) :
    name.toList.getLast? = some 'm' ∨ name.toList.getLast? = some 'e' := by
  obtain ⟨front, rfl | rfl⟩ := h <;> simp [String.toList_append, List.getLast?_append]

namespace Schema

/-- Tells whether a schema is a sequence. -/
def isArray : Schema → Bool
  | array _ => true
  | _ => false

/-- Tells whether a schema is a dictionary. -/
def isMap : Schema → Bool
  | map _ => true
  | _ => false

/-- The branches of a union of which none is a union, and at most one is a sequence and at most one
is a dictionary. -/
structure ArePlain (branches : List Schema) : Prop where
  flat : ∀ b ∈ branches, ¬ b.isUnion
  arrays : branches.countP isArray ≤ 1
  maps : branches.countP isMap ≤ 1

/-- All unions in a schema have plain branches. -/
def HasPlainUnions (s : Schema) : Prop :=
  ∀ branches, (union branches).Within s → ArePlain branches

theorem HasPlainUnions.of_array {items : Schema} (h : (array items).HasPlainUnions) :
    items.HasPlainUnions := fun branches hin => h branches (.array hin)

theorem HasPlainUnions.of_map {values : Schema} (h : (map values).HasPlainUnions) :
    values.HasPlainUnions := fun branches hin => h branches (.map hin)

theorem HasPlainUnions.of_mem {branches : List Schema} (h : (union branches).HasPlainUnions)
    {b : Schema} (hb : b ∈ branches) : b.HasPlainUnions :=
  fun branches hin => h branches (.union hb hin)

/-- In a union without nested unions, only sequences and dictionaries have enums inside. -/
theorem array_or_map_of_mem_enumEndings {b : Schema} (hb : ¬ b.isUnion) {e : String}
    (he : e ∈ b.enumEndings) : (∃ items, b = .array items) ∨ ∃ values, b = .map values := by
  cases b <;> simp_all [enumEndings, isUnion]

/-- The words of two branches do not start alike, unless they are branches of one kind. -/
theorem branchWord_append_ne {b c : Schema} (hb : ¬ b.isUnion) (hc : ¬ c.isUnion)
    (harrays : ¬ (b.isArray ∧ c.isArray)) (hmaps : ¬ (b.isMap ∧ c.isMap)) {d e : String}
    (hd : d ∈ b.enumEndings) (he : e ∈ c.enumEndings) : b.branchWord ++ d ≠ c.branchWord ++ e := by
  have hhead : ∀ d e : String, "Array" ++ d ≠ "Map" ++ e := by
    intro d e h
    simpa using congrArg (fun s : String => s.toList.head?) h
  obtain ⟨_, rfl⟩ | ⟨_, rfl⟩ := array_or_map_of_mem_enumEndings hb hd <;>
    obtain ⟨_, rfl⟩ | ⟨_, rfl⟩ := array_or_map_of_mem_enumEndings hc he
  · exact absurd ⟨rfl, rfl⟩ harrays
  · exact hhead d e
  · exact (hhead e d).symm
  · exact absurd ⟨rfl, rfl⟩ hmaps

theorem pairwise_of_countP_le_one {α : Type} {q : α → Bool} {as : List α} (h : as.countP q ≤ 1) :
    as.Pairwise fun a b => ¬ (q a ∧ q b) := by
  induction as with
  | nil => exact .nil
  | cons a as ih =>
    rw [List.countP_cons] at h
    refine List.pairwise_cons.2 ⟨fun b hb ⟨ha, hqb⟩ => ?_, ih (by omega)⟩
    have hpos : 0 < as.countP q := List.countP_pos_iff.2 ⟨b, hb, hqb⟩
    simp only [ha, if_true] at h
    omega

/-- **The enums of one schema differ.**  No two unions of a schema with plain unions have the same
ending. -/
theorem HasPlainUnions.nodup_enumEndings {s : Schema} (h : s.HasPlainUnions) :
    s.enumEndings.Nodup := by
  have hinj : ∀ word : String, Function.Injective (word ++ ·) :=
    fun word _ _ => (String.append_right_inj word).1
  induction s using Schema.induction with
  | primitive | named => simp [enumEndings]
  | array items ih =>
    rw [enumEndings]
    exact (ih h.of_array).map (hinj _)
  | map values ih =>
    rw [enumEndings]
    exact (ih h.of_map).map (hinj _)
  | union branches ih =>
    obtain ⟨hflat, harrays, hmaps⟩ := h branches .self
    have hnodup : ∀ b ∈ branches, b.enumEndings.Nodup := fun b hb => ih b hb (h.of_mem hb)
    cases hinner : (union branches).optionalInner? with
    | some inner =>
      rw [enumEndings_of_optionalInner? hinner]
      refine hnodup inner ?_
      obtain ⟨-, h | h⟩ := optionalInner?_eq_some_iff.1 hinner <;> simp [union.inj h]
    | none =>
      rw [enumEndings_of_optionalInner?_eq_none hinner]
      refine List.nodup_append.2 ⟨List.nodup_flatMap.2 ⟨fun b hb => ?_, ?_⟩, by simp, ?_⟩
      · exact (hnodup b hb).map (hinj _)
      · -- a union has at most one sequence and at most one dictionary
        refine ((pairwise_of_countP_le_one harrays).and
          (pairwise_of_countP_le_one hmaps)).imp_of_mem fun {b c} hb hc hkinds => ?_
        refine List.disjoint_left.2 ?_
        intro name hname hname'
        obtain ⟨d, hd, rfl⟩ := List.mem_map.1 hname
        obtain ⟨e, he, heq⟩ := List.mem_map.1 hname'
        exact branchWord_append_ne (hflat b hb) (hflat c hc) hkinds.1 hkinds.2 hd he heq.symm
      · intro name hname _ hempty heq
        obtain ⟨b, hb, hname⟩ := List.mem_flatMap.1 hname
        obtain ⟨e, he, rfl⟩ := List.mem_map.1 hname
        obtain rfl := List.mem_singleton.1 hempty
        obtain ⟨_, rfl⟩ | ⟨_, rfl⟩ := array_or_map_of_mem_enumEndings (hflat b hb) he <;>
          simp [branchWord] at heq

end Schema

namespace Protocol

open Schema (array_or_map_of_mem_enumEndings)

variable {p : Protocol}

/-- Among things with different keys at most one has a given key. -/
theorem countP_le_one_of_nodup {α : Type} {key : α → String} {q : α → Bool} {as : List α}
    (h : (as.map key).Nodup) (word : String) (hq : ∀ a ∈ as, q a → key a = word) :
    as.countP q ≤ 1 :=
  calc as.countP q ≤ as.countP fun a => key a == word :=
        List.countP_mono_left fun a ha hqa => by simpa using hq a ha hqa
    _ = (as.map key).count word := by rw [List.count, List.countP_map]; rfl
    _ ≤ 1 := List.nodup_iff_count_le_one.1 h word

/-- The unions of a schema that a protocol allows are plain. -/
theorem hasPlainUnions_of_allowsSchema {s : Schema} (h : p.AllowsSchema s) :
    s.HasPlainUnions := by
  intro branches hin
  obtain ⟨-, hflat, hkeys⟩ := allowsSchema_iff_forall_within s |>.1 h _ hin
  refine ⟨hflat, countP_le_one_of_nodup hkeys "array" fun b _ hb => ?_,
    countP_le_one_of_nodup hkeys "map" fun b _ hb => ?_⟩
  · cases b <;> first | rfl | cases hb
  · cases b <;> first | rfl | cases hb

theorem nodup_enumEndings {s : Schema} (h : p.AllowsSchema s) : s.enumEndings.Nodup :=
  (hasPlainUnions_of_allowsSchema h).nodup_enumEndings

/-- An ending without characters belongs to a union, and any other one ends with the word for
the items of a sequence or the values of a dictionary. -/
theorem endsInside_of_mem_enumEndings {s : Schema} (h : p.AllowsSchema s) {e : String}
    (he : e ∈ s.enumEndings) : (e = "" ∧ s.isUnion) ∨ EndsInside e := by
  have hword : ∀ word, EndsInside word → ∀ {e : String} {c : Prop},
      (e = "" ∧ c) ∨ EndsInside e → EndsInside (word ++ e) := by
    rintro word hword e c (⟨rfl, -⟩ | he)
    · simpa using hword
    · exact he.append word
  induction s using Schema.induction generalizing e with
  | primitive | named => simp [Schema.enumEndings] at he
  | array items ih =>
    rw [AllowsSchema] at h
    rw [Schema.enumEndings, List.mem_map] at he
    obtain ⟨d, hd, rfl⟩ := he
    exact .inr (hword _ ⟨"", .inl rfl⟩ (ih h hd))
  | map values ih =>
    rw [AllowsSchema] at h
    rw [Schema.enumEndings, List.mem_map] at he
    obtain ⟨d, hd, rfl⟩ := he
    exact .inr (hword _ ⟨"", .inr rfl⟩ (ih h hd))
  | union branches ih =>
    rw [AllowsSchema] at h
    obtain ⟨-, hflat, -, hbranches⟩ := h
    -- what is inside a branch ends inside, as no branch is a union
    have hinside : ∀ b ∈ branches, ∀ d ∈ b.enumEndings, EndsInside d := by
      intro b hb d hd
      refine (ih b hb (allowsSchemas_iff.1 hbranches b hb) hd).resolve_left ?_
      exact fun hunion => hflat b hb hunion.2
    cases hinner : (Schema.union branches).optionalInner? with
    | some inner =>
      rw [Schema.enumEndings_of_optionalInner? hinner] at he
      refine .inr (hinside inner ?_ e he)
      obtain ⟨-, h | h⟩ := Schema.optionalInner?_eq_some_iff.1 hinner <;> simp [Schema.union.inj h]
    | none =>
      rw [Schema.enumEndings_of_optionalInner?_eq_none hinner, List.mem_append] at he
      obtain he | he := he
      · obtain ⟨b, hb, he⟩ := List.mem_flatMap.1 he
        obtain ⟨d, hd, rfl⟩ := List.mem_map.1 he
        exact .inr ((hinside b hb d hd).append _)
      · exact .inl ⟨List.mem_singleton.1 he, rfl⟩

/-- The ending without characters is the one of a schema that is an enum itself. -/
theorem empty_mem_enumEndings_iff {s : Schema} (h : p.AllowsSchema s) :
    "" ∈ s.enumEndings ↔ s.NeedsEnum := by
  have hunion : ∀ {s : Schema}, p.AllowsSchema s → "" ∈ s.enumEndings → s.isUnion := by
    intro s h hs
    obtain ⟨-, hunion⟩ | hinside := endsInside_of_mem_enumEndings h hs
    · exact hunion
    · simpa using hinside.getLast?
  constructor
  · intro hs
    refine ⟨hunion h hs, Option.eq_none_iff_forall_not_mem.2 fun inner hinner => ?_⟩
    -- the schema inside an optional value is no union
    rw [Schema.enumEndings_of_optionalInner? hinner] at hs
    obtain ⟨-, rfl | rfl⟩ := Schema.optionalInner?_eq_some_iff.1 hinner <;>
      · rw [AllowsSchema] at h
        obtain ⟨-, hflat, -, hbranches⟩ := h
        exact hflat inner (by simp) (hunion (allowsSchemas_iff.1 hbranches inner (by simp)) hs)
  · rintro ⟨hs, hinner⟩
    cases s with
    | union branches =>
      rw [Schema.enumEndings_of_optionalInner?_eq_none hinner]
      simp
    | _ => cases hs

end Protocol

end IdlCompiler
