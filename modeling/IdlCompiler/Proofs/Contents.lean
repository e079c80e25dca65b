/-
# What generated definitions contain

Which definitions a generated definition contains directly: not behind a pointer, in a
sequence or in a dictionary.  A struct contains the types that its fields refer to, unless
they are boxed, and the enums of the unions in its fields; the enum of a union contains the
types that its branches name.  The main lemmas, `Target.mem_contents_data_iff` and
`Target.mem_contents_union`, say so in terms of the schemas of a well-formed protocol.
-/
import IdlCompiler.Proofs.Resolution
import IdlCompiler.Proofs.Reachability
import IdlCompiler.Target.Module

namespace IdlCompiler

open Relation

/-! ## Names outside of containers -/

namespace Schema

mutual

/-- The names that a schema refers to outside of arrays and maps. -/
def valueReferences : Schema → List String
  | primitive _ | array _ | map _ => []
  | union branches => valueReferencesOfAll branches
  | named name => [name]
termination_by structural s => s

/-- The names that a list of schemas refers to outside of arrays and maps. -/
def valueReferencesOfAll : List Schema → List String
  | [] => []
  | s :: ss => valueReferences s ++ valueReferencesOfAll ss
termination_by structural ss => ss

end

/-- A union that stands for an enum of its own, as it is not an optional value. -/
def NeedsEnum (s : Schema) : Prop := s.isUnion ∧ s.optionalInner? = none

/-- No branch of a union is a union itself. -/
def IsFlat : Schema → Prop
  | union branches => ∀ b ∈ branches, ¬ b.isUnion
  | _ => True

theorem valueReferencesOfAll_eq_flatMap (ss : List Schema) :
    valueReferencesOfAll ss = ss.flatMap valueReferences := by
  induction ss with
  | nil => rfl
  | cons s ss ih => simp [valueReferencesOfAll, ih]

/-- The two ways in which a schema is an optional value. -/
theorem optionalInner?_eq_some_iff {s inner : Schema} :
    s.optionalInner? = some inner ↔
      ¬ inner.isNull ∧ (s = .union [.null, inner] ∨ s = .union [inner, .null]) := by
  constructor
  · intro h
    unfold optionalInner? at h
    split at h
    · rename_i a b
      by_cases ha : a.isNull <;> by_cases hb : b.isNull <;> simp [ha, hb] at h
      · subst h
        exact ⟨hb, .inl (by rw [isNull_iff.1 ha])⟩
      · subst h
        exact ⟨ha, .inr (by rw [isNull_iff.1 hb])⟩
    · cases h
  · have hnull : null.isNull := by decide
    rintro ⟨hinner, rfl | rfl⟩ <;> simp [optionalInner?, hinner, hnull]

/-- A value of a schema that is optional refers to what the schema inside refers to. -/
theorem valueReferences_of_optionalInner? {s inner : Schema} (h : s.optionalInner? = some inner) :
    s.valueReferences = inner.valueReferences := by
  obtain ⟨-, rfl | rfl⟩ := optionalInner?_eq_some_iff.1 h <;>
    simp [valueReferences, valueReferencesOfAll]

/-- In a schema without nested unions a name outside of containers is the direct reference,
or the name of a branch of an enum. -/
theorem mem_valueReferences_iff {s : Schema} (hs : s.IsFlat) {n : String} :
    n ∈ s.valueReferences ↔ s.directReference? = some n ∨
      (s.NeedsEnum ∧ ∃ branches, s = .union branches ∧ .named n ∈ branches) := by
  have flat : ∀ b : Schema, ¬ b.isUnion → (n ∈ b.valueReferences ↔ b = .named n) := by
    intro b hb
    cases b <;> simp_all [valueReferences, isUnion, eq_comm]
  cases s with
  | union branches =>
    have hunion : (union branches).isUnion := rfl
    cases hinner : (union branches).optionalInner? with
    | some inner =>
      -- an optional value has no enum, and its inner schema is no union
      have hnot : ¬ inner.isUnion := by
        obtain ⟨-, h | h⟩ := optionalInner?_eq_some_iff.1 hinner <;>
          exact hs inner (by simp [union.inj h])
      rw [valueReferences_of_optionalInner? hinner, flat inner hnot]
      simp only [directReference?, hinner, NeedsEnum, reduceCtorEq, and_false, false_and, or_false]
      cases inner <;> simp
    | none =>
      simp only [directReference?, hinner, NeedsEnum, hunion, reduceCtorEq, false_or, and_self,
        true_and, union.injEq, exists_eq_left', valueReferences, valueReferencesOfAll_eq_flatMap,
        List.mem_flatMap]
      constructor
      · rintro ⟨b, hb, hn⟩
        exact (flat b (hs b hb)).1 hn ▸ hb
      · exact fun hn => ⟨_, hn, by simp [valueReferences]⟩
  | _ => simp [valueReferences, directReference?, optionalInner?, NeedsEnum, isUnion, eq_comm]

end Schema

/-! ## Schemas that a protocol allows -/

namespace Protocol

variable {p : Protocol}

theorem isFlat_of_allowsSchema {s : Schema} (h : p.AllowsSchema s) : s.IsFlat := by
  cases s with
  | union branches =>
    rw [Protocol.AllowsSchema] at h
    exact h.2.1
  | _ => trivial

theorem hasType_of_mem_branches {branches : List Schema}
    (h : p.AllowsSchemas branches) {n : String} (hn : .named n ∈ branches) : p.hasType n := by
  simpa [AllowsSchema] using allowsSchemas_iff.1 h _ hn

theorem hasType_of_directReference? {s : Schema} (h : p.AllowsSchema s) {n : String}
    (hn : s.directReference? = some n) : p.hasType n := by
  unfold Schema.directReference? at hn
  split at hn
  · obtain rfl := Option.some.inj hn
    simpa [Protocol.AllowsSchema] using h
  · split at hn
    · rename_i inner hinner
      obtain rfl := Option.some.inj hn
      obtain ⟨-, rfl | rfl⟩ := Schema.optionalInner?_eq_some_iff.1 hinner <;>
        · rw [Protocol.AllowsSchema] at h
          exact hasType_of_mem_branches h.2.2.2 (by simp)
    · cases hn

/-- The check of a protocol looks at every field of its records. -/
theorem WellFormed.allowsSchema_of_mem (hp : p.WellFormed) {t : ResolvedType}
    (ht : t ∈ (Resolved.ofProtocol p).types) {isError : Bool} {fields : List ResolvedField}
    (hbody : t.body = .record isError fields) {f : ResolvedField} (hf : f ∈ fields) :
    p.AllowsSchema f.schema := by
  obtain ⟨u, hu, rfl⟩ := List.mem_map.1 ht
  have hallows := (hp.types u hu).body
  cases hub : u.body with
  | record e fs =>
    simp only [ResolvedType.ofType, hub, ResolvedBody.ofBody, ResolvedBody.record.injEq] at hbody
    obtain ⟨g, hg, rfl⟩ := List.mem_map.1 (hbody.2 ▸ hf)
    rw [hub, AllowsBody] at hallows
    exact hallows.schema g hg
  | _ => simp [ResolvedType.ofType, hub, ResolvedBody.ofBody] at hbody

/-- A reference that stands for a type has the name of a resolved type. -/
theorem WellFormed.exists_referenceName (hp : p.WellFormed) (hi : p.IsIndexed) {n : String}
    (hn : p.hasType n) : ∃ t ∈ (Resolved.ofProtocol p).types,
      Target.referenceName (.ofProtocol p) n = t.targetName := by
  obtain ⟨t, ht⟩ := Option.isSome_iff_exists.1 (hp.isSome_getType? hi hn)
  exact ⟨t, Resolved.getType?_mem ht, by simp [Target.referenceName, Resolved.targetName?, ht]⟩

end Protocol

/-! ## Definitions that contain each other -/

namespace Target

/-- A definition that holds values of other types: one with data, or an enum that stands for
a union. -/
inductive Holder where
  | data (definition : DataDef)
  | union (definition : UnionDef)
deriving DecidableEq, Repr

namespace Holder

/-- The name of a definition. -/
def name : Holder → String
  | data d => d.name
  | union u => u.name

/-- The names of the definitions whose values a value of the definition contains directly. -/
def contents : Holder → List String
  | data (.fixed _) => []
  | data (.struct d) => d.members.flatMap fun member => member.type.contents
  | union u => u.variants.flatMap fun variant => (variant.payload.map TypeExpr.contents).getD []

end Holder

namespace Module

/-- The definitions with data of a module and the enums of its unions. -/
def holders (m : Module) : List Holder := m.data.map .data ++ m.unions.map .union

/-- A value of the definition `a` contains a value of the definition `b` directly. -/
def Contains (m : Module) (a b : Holder) : Prop :=
  a ∈ m.holders ∧ b ∈ m.holders ∧ b.name ∈ a.contents

/-- The enums of unions have names that differ from each other and from those of the types. -/
def HasOwnUnionNames (m : Module) (r : Resolved) : Prop :=
  (m.unions.map UnionDef.name).Nodup ∧ ∀ u ∈ m.unions, ∀ t ∈ r.types, u.name ≠ t.targetName

end Module

variable {r : Resolved} {hint name : String}

theorem mapOptional?_eq (branches : List Schema) :
    mapOptional? r hint branches =
      (Schema.union branches).optionalInner?.map (mapSchema r hint) := by
  match branches with
  | [] => rfl
  | [_] => rfl
  | [a, b] =>
    rw [mapOptional?, Schema.optionalInner?]
    split <;> split <;> rfl
  | _ :: _ :: _ :: _ => rfl

/-- The contents of the type of a schema without nested unions: an enum of its own, or the
type that it refers to directly or as an optional value. -/
theorem mem_contents_mapSchema {s : Schema} (hs : s.IsFlat) :
    name ∈ (mapSchema r hint s).type.contents ↔
      (s.NeedsEnum ∧ name = hint) ∨
        ∃ n, s.directReference? = some n ∧ referenceName r n = name := by
  cases s with
  | union branches =>
    have hunion : (Schema.union branches).isUnion := rfl
    rw [mapSchema, mapOptional?_eq]
    cases hinner : (Schema.union branches).optionalInner? with
    | none => simp [Schema.NeedsEnum, hunion, hinner, Schema.directReference?, TypeExpr.contents]
    | some inner =>
      -- an optional value has no enum, and its inner schema is no union
      have hnot : ¬ inner.isUnion := by
        obtain ⟨-, h | h⟩ := Schema.optionalInner?_eq_some_iff.1 hinner <;>
          exact hs inner (by simp [Schema.union.inj h])
      cases inner with
      | named n =>
        rw [Option.map_some]
        simp only [Mapped.wrap, mapSchema, TypeExpr.contents, List.mem_singleton,
          Schema.NeedsEnum, hinner, Schema.directReference?, reduceCtorEq, and_false, false_and,
          false_or, Option.some.injEq, exists_eq_left']
        exact eq_comm
      | union _ => exact absurd rfl hnot
      | primitive p =>
        cases p <;> simp [Schema.NeedsEnum, hinner, Schema.directReference?, mapSchema,
          primitiveType, Mapped.wrap, TypeExpr.contents]
      | _ =>
        simp [Schema.NeedsEnum, hinner, Schema.directReference?, mapSchema, Mapped.wrap,
          TypeExpr.contents]
  | primitive p =>
    cases p <;> simp [mapSchema, primitiveType, TypeExpr.contents, Schema.NeedsEnum,
      Schema.isUnion, Schema.directReference?, Schema.optionalInner?]
  | named n =>
    simp only [mapSchema, TypeExpr.contents, List.mem_singleton, Schema.NeedsEnum, Schema.isUnion,
      Schema.directReference?, Bool.false_eq_true, false_and, false_or, Option.some.injEq,
      exists_eq_left']
    exact eq_comm
  | _ =>
    simp [mapSchema, Mapped.wrap, TypeExpr.contents, Schema.NeedsEnum, Schema.isUnion,
      Schema.directReference?, Schema.optionalInner?]

/-- A field contains its enum, or the type that it refers to if that does not lead back. -/
theorem mem_contents_mapField {owner ownerName : String} {f : ResolvedField}
    (hf : f.schema.IsFlat) :
    name ∈ (mapField r owner ownerName f).type.contents ↔
      (f.schema.NeedsEnum ∧ name = ownerName ++ Name.pascalCase f.name) ∨
        ∃ n, f.schema.directReference? = some n ∧ referenceName r n = name ∧
          ∀ t, r.getType? n = some t → ¬ ReflTransGen r.Leads t.fullName owner := by
  by_cases hbox : r.needsBox owner f.schema
  · -- behind the pointer nothing is contained directly
    have hempty : (mapField r owner ownerName f).type.contents = [] := by
      rw [mapField, if_pos hbox]
      split <;> simp [Mapped.wrap, TypeExpr.contents]
    obtain ⟨n, t, hn, ht, hway⟩ := Resolved.needsBox_iff.1 hbox
    rw [hempty]
    simp only [List.not_mem_nil, false_iff, not_or, not_and, not_exists]
    constructor
    · rintro ⟨hunion, hinner⟩
      cases hs : f.schema <;> simp_all [Schema.isUnion, Schema.directReference?]
    · intro m hm _ haway
      obtain rfl : n = m := Option.some.inj (hn.symm.trans hm)
      exact haway t ht hway
  · rw [mapField, if_neg hbox, mem_contents_mapSchema hf]
    refine or_congr_right (exists_congr fun n => and_congr_right fun hn => ?_)
    have haway : ∀ t, r.getType? n = some t → ¬ ReflTransGen r.Leads t.fullName owner :=
      fun t ht hway => hbox (Resolved.needsBox_iff.2 ⟨n, t, hn, ht, hway⟩)
    exact ⟨fun h => ⟨h, haway⟩, fun h => h.1⟩

/-- The enum of a union without nested unions contains the types that its branches name. -/
theorem mem_contents_union {branches : List Schema} (hflat : ∀ b ∈ branches, ¬ b.isUnion)
    {enum : String} :
    name ∈ (Holder.union ⟨enum, (mapBranches r hint branches).1⟩).contents ↔
      ∃ n, .named n ∈ branches ∧ referenceName r n = name := by
  induction branches with
  | nil => simp [mapBranches, Holder.contents]
  | cons b branches ih =>
    have ih := ih fun s hs => hflat s (List.mem_cons_of_mem _ hs)
    simp only [Holder.contents] at ih ⊢
    have hb := hflat b (by simp)
    rw [mapBranches]
    by_cases hnull : b.isNull
    · have hne : ∀ n, Schema.named n ≠ b := by
        rintro n rfl
        exact absurd hnull (by simp [Schema.isNull, Schema.primitive?])
      simp [hnull, ih, hne]
    · have hs : b.IsFlat := by cases b <;> simp_all [Schema.IsFlat, Schema.isUnion]
      have hown : name ∈ (mapSchema r (hint ++ branchName r b) b).type.contents ↔ _ :=
        mem_contents_mapSchema hs
      simp only [hnull, Bool.false_eq_true, if_false, List.flatMap_cons, List.mem_append, ih,
        Option.map_some, Option.getD_some, hown, List.mem_cons]
      cases b <;> simp_all [Schema.NeedsEnum, Schema.isUnion, Schema.directReference?,
        Schema.optionalInner?, or_and_right, exists_or]

section Allowed

variable {p : Protocol}

/-- The enum `u` stands for a union that the protocol allows. -/
def IsAllowedEnum (r : Resolved) (p : Protocol) (u : UnionDef) : Prop :=
  ∃ enum branches, (∀ b ∈ branches, ¬ b.isUnion) ∧ p.AllowsSchemas branches
    ∧ u = ⟨enum, (mapBranches r enum branches).1⟩

mutual

/-- Every enum that a schema needs stands for a union that the protocol allows. -/
theorem isAllowedEnum_of_mem_mapSchema {hint : String} {u : UnionDef} :
    (s : Schema) → p.AllowsSchema s → u ∈ (mapSchema r hint s).unions → IsAllowedEnum r p u
  | .primitive _, _, hu => by simp [mapSchema] at hu
  | .named _, _, hu => by simp [mapSchema] at hu
  | .array items, h, hu =>
    isAllowedEnum_of_mem_mapSchema items (by simpa [Protocol.AllowsSchema] using h)
      (by simpa [mapSchema, Mapped.wrap] using hu)
  | .map values, h, hu =>
    isAllowedEnum_of_mem_mapSchema values (by simpa [Protocol.AllowsSchema] using h)
      (by simpa [mapSchema, Mapped.wrap] using hu)
  | .union branches, h, hu => by
    rw [Protocol.AllowsSchema] at h
    rw [mapSchema] at hu
    split at hu
    · rename_i inner hinner
      exact isAllowedEnum_of_mem_mapOptional? branches h.2.2.2 hinner hu
    · simp only [List.mem_append, List.mem_singleton] at hu
      rcases hu with hu | hu
      · exact isAllowedEnum_of_mem_mapBranches branches h.2.2.2 hu
      · exact ⟨hint, branches, h.2.1, h.2.2.2, hu⟩

theorem isAllowedEnum_of_mem_mapOptional? {hint : String} {u : UnionDef} {m : Mapped} :
    (ss : List Schema) → p.AllowsSchemas ss → mapOptional? r hint ss = some m → u ∈ m.unions →
      IsAllowedEnum r p u
  | [], _, hm, _ => by simp [mapOptional?] at hm
  | [_], _, hm, _ => by simp [mapOptional?] at hm
  | [a, b], h, hm, hu => by
    simp only [Protocol.AllowsSchemas] at h
    rw [mapOptional?] at hm
    split at hm
    · split at hm
      · cases hm
      · obtain rfl := Option.some.inj hm
        exact isAllowedEnum_of_mem_mapSchema b h.2.1 hu
    · split at hm
      · obtain rfl := Option.some.inj hm
        exact isAllowedEnum_of_mem_mapSchema a h.1 hu
      · cases hm
  | _ :: _ :: _ :: _, _, hm, _ => by simp [mapOptional?] at hm

theorem isAllowedEnum_of_mem_mapBranches {hint : String} {u : UnionDef} :
    (ss : List Schema) → p.AllowsSchemas ss → u ∈ (mapBranches r hint ss).2 → IsAllowedEnum r p u
  | [], _, hu => by simp [mapBranches] at hu
  | s :: ss, h, hu => by
    rw [Protocol.AllowsSchemas] at h
    rw [mapBranches] at hu
    split at hu
    · exact isAllowedEnum_of_mem_mapBranches ss h.2 hu
    · rcases List.mem_append.1 hu with hu | hu
      · exact isAllowedEnum_of_mem_mapSchema s h.1 hu
      · exact isAllowedEnum_of_mem_mapBranches ss h.2 hu

end

/-- So does every enum that a field needs. -/
theorem isAllowedEnum_of_mem_mapField {owner ownerName : String} {f : ResolvedField}
    {u : UnionDef} (h : p.AllowsSchema f.schema)
    (hu : u ∈ (mapField r owner ownerName f).unions) :
    IsAllowedEnum r p u := by
  rw [mapField] at hu
  split at hu
  · split at hu
    · rename_i inner hinner
      refine isAllowedEnum_of_mem_mapSchema inner ?_ hu
      rcases Schema.optionalInner?_eq_some_iff.1 hinner with ⟨-, hs | hs⟩ <;>
        rw [hs] at h <;> simp only [Protocol.AllowsSchema, Protocol.AllowsSchemas] at h <;> tauto
    · exact isAllowedEnum_of_mem_mapSchema _ h hu
  · exact isAllowedEnum_of_mem_mapSchema _ h hu

end Allowed

/-! ## What the definitions of a module contain -/

/-- The enum `u` stands for the union of a field of the record `t`. -/
def IsEnumOf (r : Resolved) (t : ResolvedType) (u : UnionDef) : Prop :=
  ∃ isError fields f branches, t ∈ r.types ∧ t.body = .record isError fields ∧ f ∈ fields
    ∧ f.schema = .union branches ∧ f.schema.NeedsEnum
    ∧ u = ⟨t.targetName ++ Name.pascalCase f.name,
      (mapBranches r (t.targetName ++ Name.pascalCase f.name) branches).1⟩

/-- A field of the record `t` refers directly or as an optional value to a type with the name
`name`, and this type does not lead back. -/
def RefersAway (r : Resolved) (t : ResolvedType) (name : String) : Prop :=
  ∃ isError fields f n, t ∈ r.types ∧ t.body = .record isError fields ∧ f ∈ fields
    ∧ f.schema.directReference? = some n ∧ referenceName r n = name
    ∧ ∀ u, r.getType? n = some u → ¬ ReflTransGen r.Leads u.fullName t.fullName

theorem name_of_dataOf? {t : ResolvedType} {d : DataDef} {unions : List UnionDef}
    (h : dataOf? r t = some (d, unions)) : d.name = t.targetName := by
  unfold dataOf? at h
  split at h <;> simp only [Option.some.injEq, Prod.mk.injEq, reduceCtorEq] at h
  · exact h.1 ▸ rfl
  · exact h.1 ▸ rfl

theorem data_mem_holders_iff {d : DataDef} :
    .data d ∈ (Module.ofResolved r).holders ↔ ∃ t ∈ r.types, ∃ us, dataOf? r t = some (d, us) := by
  simp only [Module.holders, Module.ofResolved, List.mem_append, List.mem_map, List.mem_filterMap,
    Holder.data.injEq, exists_eq_right, reduceCtorEq, and_false, exists_false, or_false]
  constructor
  · rintro ⟨⟨d', us⟩, ⟨t, ht, h⟩, rfl⟩
    exact ⟨t, ht, us, h⟩
  · rintro ⟨t, ht, us, h⟩
    exact ⟨(d, us), ⟨t, ht, h⟩, rfl⟩

theorem union_mem_holders_iff {u : UnionDef} :
    .union u ∈ (Module.ofResolved r).holders ↔ u ∈ (Module.ofResolved r).unions := by
  simp [Module.holders]

/-- The enums of a module are those that the fields of its records need. -/
theorem mem_unions_iff {u : UnionDef} :
    u ∈ (Module.ofResolved r).unions ↔ ∃ t ∈ r.types, ∃ isError fields,
      t.body = .record isError fields ∧ ∃ f ∈ fields, u ∈ (memberOf r t f).2 := by
  simp only [Module.ofResolved, List.mem_flatMap, List.mem_filterMap]
  constructor
  · rintro ⟨⟨d, us⟩, ⟨t, ht, h⟩, hu⟩
    unfold dataOf? at h
    split at h <;> simp only [Option.some.injEq, Prod.mk.injEq, reduceCtorEq] at h
    · simp [← h.2] at hu
    · rename_i isError fields hbody
      obtain ⟨member, hmember, hu⟩ := List.mem_flatMap.1 (h.2 ▸ hu)
      obtain ⟨f, hf, rfl⟩ := List.mem_map.1 hmember
      exact ⟨t, ht, isError, fields, hbody, f, hf, hu⟩
  · rintro ⟨t, ht, isError, fields, hbody, f, hf, hu⟩
    refine ⟨_, ⟨t, ht, by rw [dataOf?, hbody]⟩, ?_⟩
    exact List.mem_flatMap.2 ⟨_, List.mem_map_of_mem hf, hu⟩

theorem mem_unions_of_isEnumOf {t : ResolvedType} {u : UnionDef} (h : IsEnumOf r t u) :
    u ∈ (Module.ofResolved r).unions := by
  obtain ⟨isError, fields, f, branches, ht, hbody, hf, hschema, ⟨-, hinner⟩, rfl⟩ := h
  refine mem_unions_iff.2 ⟨t, ht, isError, fields, hbody, f, hf, ?_⟩
  have hbox : ¬ r.needsBox t.fullName f.schema := by
    rw [Resolved.needsBox_iff]
    rintro ⟨n, -, hn, -⟩
    rw [hschema] at hn hinner
    simp [Schema.directReference?, hinner] at hn
  rw [hschema] at hinner
  rw [memberOf, mapField, if_neg hbox, hschema, mapSchema, mapOptional?_eq, hinner]
  simp

variable {p : Protocol}

/-- A struct contains the enums of its fields and the types that its fields refer to, as far
as these do not lead back. -/
theorem mem_contents_data_iff {t : ResolvedType} (hp : p.WellFormed) {d : DataDef}
    {us : List UnionDef} (ht : t ∈ (Resolved.ofProtocol p).types)
    (hd : dataOf? (.ofProtocol p) t = some (d, us)) :
    name ∈ (Holder.data d).contents ↔
      (∃ u, IsEnumOf (.ofProtocol p) t u ∧ u.name = name) ∨
        RefersAway (.ofProtocol p) t name := by
  unfold dataOf? at hd
  split at hd <;> simp only [Option.some.injEq, Prod.mk.injEq, reduceCtorEq] at hd
  · rename_i size hbody
    rw [← hd.1]
    simp [Holder.contents, IsEnumOf, RefersAway, hbody]
  · -- a struct contains what one of its fields contains
    rename_i isError fields hbody
    rw [← hd.1]
    simp only [Holder.contents, List.mem_flatMap, List.mem_map, exists_exists_and_eq_and]
    constructor
    · rintro ⟨f, hf, hname⟩
      have hflat := Protocol.isFlat_of_allowsSchema (hp.allowsSchema_of_mem ht hbody hf)
      rcases (mem_contents_mapField hflat).1 hname with ⟨henum, rfl⟩ | ⟨n, hn, href, haway⟩
      · cases hs : f.schema with
        | union branches =>
          exact .inl ⟨_, ⟨isError, fields, f, branches, ht, hbody, hf, hs, henum, rfl⟩, rfl⟩
        | _ => simp [Schema.NeedsEnum, hs, Schema.isUnion] at henum
      · exact .inr ⟨isError, fields, f, n, ht, hbody, hf, hn, href, haway⟩
    · rintro (⟨u, ⟨e, fs, f, branches, -, hbody', hf, hs, henum, rfl⟩, rfl⟩ |
        ⟨e, fs, f, n, -, hbody', hf, hn, href, haway⟩)
      all_goals
        obtain ⟨rfl, rfl⟩ := ResolvedBody.record.inj (hbody.symm.trans hbody')
        have hflat := Protocol.isFlat_of_allowsSchema (hp.allowsSchema_of_mem ht hbody hf)
        refine ⟨f, hf, (mem_contents_mapField hflat).2 ?_⟩
      · exact .inl ⟨henum, rfl⟩
      · exact .inr ⟨n, hn, href, haway⟩

/-- The enums of a module contain types of the protocol only. -/
theorem exists_targetName_of_mem_unions (hp : p.WellFormed) (hi : p.IsIndexed) {u : UnionDef}
    (hu : u ∈ (Module.ofResolved (.ofProtocol p)).unions)
    (hname : name ∈ (Holder.union u).contents) :
    ∃ t ∈ (Resolved.ofProtocol p).types, t.targetName = name := by
  obtain ⟨t, ht, isError, fields, hbody, f, hf, hu⟩ := mem_unions_iff.1 hu
  have hallows := hp.allowsSchema_of_mem ht hbody hf
  obtain ⟨enum, branches, hflat, hbranches, rfl⟩ :=
    isAllowedEnum_of_mem_mapField hallows hu
  obtain ⟨n, hn, rfl⟩ := (mem_contents_union hflat).1 hname
  obtain ⟨t, ht, heq⟩ := hp.exists_referenceName hi (Protocol.hasType_of_mem_branches hbranches hn)
  exact ⟨t, ht, heq.symm⟩

end Target

end IdlCompiler
