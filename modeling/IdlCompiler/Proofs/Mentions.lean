/-
# Names that generated code mentions

Generated code refers to types by name in the members of its structs, in the data of the
variants of its enums, in the parameters and answers of its methods and in its error type.
The forms of a type expression that are no names are fixed: primitive types, sequences,
dictionaries, optional values and pointers.  This file is about the names.

A mapped schema is backed (`Target.Mapped.IsBacked`) if every name in its type is that of a
type of the protocol, or of an enum that was collected while the schema was mapped, and if
the collected enums are emitted together.  The main statement,
`Target.isClosed_ofResolved`, says that everything that mentions names in the module of a
protocol that passes the check is backed, that every type is emitted by one generator, and
that every error of a message is a variant of the error type.
-/
import IdlCompiler.Proofs.Contents
import Mathlib.Data.List.Infix

namespace IdlCompiler

/-! ## References that are found -/

theorem Schema.references_subset_of_mem {b : Schema} {branches : List Schema} (hb : b ∈ branches) :
    b.references ⊆ (Schema.union branches).references := by
  intro n hn
  rw [Schema.references, Schema.referencesOfAll_eq_flatMap]
  exact List.mem_flatMap.2 ⟨b, hb, hn⟩

theorem Schema.mem_of_optionalInner? {branches : List Schema} {inner : Schema}
    (h : (Schema.union branches).optionalInner? = some inner) : inner ∈ branches := by
  obtain ⟨-, h | h⟩ := Schema.optionalInner?_eq_some_iff.1 h <;> simp [Schema.union.inj h]

namespace Resolved

/-- Every name in a schema, at any depth, is found. -/
def Knows (r : Resolved) (s : Schema) : Prop := ∀ n ∈ s.references, (r.targetName? n).isSome

variable {r : Resolved}

theorem Knows.of_mem {branches : List Schema} (h : r.Knows (.union branches)) {b : Schema}
    (hb : b ∈ branches) : r.Knows b :=
  fun n hn => h n (Schema.references_subset_of_mem hb hn)

/-- The schemas of the fields of the types, and of the parameters and responses of the
messages. -/
def schemas (r : Resolved) : List Schema :=
  (r.types.flatMap fun t => match t.body with
    | .record _ fields => fields.map ResolvedField.schema
    | _ => []) ++
  r.messages.flatMap fun m => m.request.map ResolvedField.schema ++ [m.response]

end Resolved

/-- The type is a record that can be thrown. -/
def ResolvedType.IsError (t : ResolvedType) : Prop := ∃ fields, t.body = .record true fields

namespace Protocol

variable {p : Protocol}

/-- The names in a schema that the protocol allows stand for types. -/
theorem hasType_of_mem_references {s : Schema} (h : p.AllowsSchema s) {n : String}
    (hn : n ∈ s.references) : p.hasType n := by
  induction s using Schema.induction with
  | primitive => simp [Schema.references] at hn
  | named name =>
    obtain rfl : n = name := by simpa [Schema.references] using hn
    exact h
  | array items ih | map values ih =>
    rw [AllowsSchema] at h
    exact ih h (by simpa [Schema.references] using hn)
  | union branches ih =>
    rw [AllowsSchema] at h
    rw [Schema.references, Schema.referencesOfAll_eq_flatMap] at hn
    obtain ⟨b, hb, hn⟩ := List.mem_flatMap.1 hn
    exact ih b hb (allowsSchemas_iff.1 h.2.2.2 b hb) hn

theorem WellFormed.knows (hp : p.WellFormed) (hi : p.IsIndexed) {s : Schema}
    (h : p.AllowsSchema s) : (Resolved.ofProtocol p).Knows s := by
  intro n hn
  rw [Resolved.targetName?, Option.isSome_map]
  exact hp.isSome_getType? hi (hasType_of_mem_references h hn)

/-- Every schema of the resolved protocol has been checked. -/
theorem WellFormed.allowsSchema_of_mem_schemas (hp : p.WellFormed) {s : Schema}
    (hs : s ∈ (Resolved.ofProtocol p).schemas) : p.AllowsSchema s := by
  obtain hs | hs := List.mem_append.1 hs
  · obtain ⟨t, ht, hs⟩ := List.mem_flatMap.1 hs
    split at hs
    · rename_i isError fields hbody
      obtain ⟨f, hf, rfl⟩ := List.mem_map.1 hs
      exact hp.allowsSchema_of_mem ht hbody hf
    · cases hs
  · obtain ⟨m, hm, hs⟩ := List.mem_flatMap.1 hs
    obtain ⟨message, hmessage, rfl⟩ := List.mem_map.1 hm
    have hallows := hp.messages message hmessage
    obtain hs | hs := List.mem_append.1 hs
    · obtain ⟨f, hf, rfl⟩ := List.mem_map.1 hs
      obtain ⟨field, hfield, rfl⟩ := List.mem_map.1 hf
      exact hallows.request.schema field hfield
    · obtain rfl := List.mem_singleton.1 hs
      exact hallows.response

/-- The full name of a type is found, and stands for the type. -/
theorem WellFormed.getType?_fullNameOf (hp : p.WellFormed) {t : NamedType} (ht : t ∈ p.types) :
    (Resolved.ofProtocol p).getType? (p.fullNameOf t) = some (.ofType p t) := by
  have hfind : (Resolved.referencesOf p).find? (p.fullNameOf t) = some (p.fullNameOf t) := by
    rw [Resolved.referencesOf, find?_foldl_enterOwnName, find?_foldl_enterNames,
      if_pos (List.mem_map_of_mem ht)]
    cases hown : p.types.reverse.find? fun u => u.space.isNone ∧ u.name = p.fullNameOf t with
    | none => rfl
    | some u =>
      -- a type that takes the name for its simple name has no namespace at all
      have hu : u ∈ p.types := by simpa using List.mem_of_find?_eq_some hown
      obtain ⟨hspace, hname⟩ : u.space = none ∧ u.name = p.fullNameOf t := by
        simpa using List.find?_some hown
      have hnone : p.space = none := by
        by_contra hsome
        have hdot := hp.hasDot_fullNameOf ht (by simp [Option.isSome_iff_ne_none, hsome])
        exact hp.not_hasDot_name hu (hname ▸ hdot)
      have hfull := hp.fullNameOf_eq hu
      rw [hspace, hnone] at hfull
      simpa [hfull] using hname
  rw [Resolved.getType?]
  change (Resolved.referencesOf p).find? _ >>= _ = _
  rw [hfind]
  exact hp.named?_fullNameOf ht

/-- The errors of a message stand for types that can be thrown. -/
theorem WellFormed.exists_isError (hp : p.WellFormed) (hi : p.IsIndexed) {m : ResolvedMessage}
    (hm : m ∈ (Resolved.ofProtocol p).messages) {e : String} (he : e ∈ m.errors) :
    ∃ t, (Resolved.ofProtocol p).getType? e = some t ∧ t.IsError := by
  obtain ⟨message, hmessage, rfl⟩ := List.mem_map.1 hm
  obtain ⟨error, herror, rfl⟩ := List.mem_map.1 he
  obtain ⟨t, ht, hthrown⟩ := (hp.messages message hmessage).errors error herror
  have hmem := (hp.fullNameOf_of_getType? hi ht).1
  rw [resolveName, ht]
  refine ⟨_, hp.getType?_fullNameOf hmem, ?_⟩
  unfold NamedType.isError at hthrown
  split at hthrown
  · rename_i isError fields hbody
    obtain rfl : isError = true := hthrown
    exact ⟨fields.map .ofField, by simp [ResolvedType.ofType, hbody, ResolvedBody.ofBody]⟩
  · cases hthrown

end Protocol

namespace Target

variable {r : Resolved}

/-! ## What the generators emit -/

/-- The generators of definitions of types. -/
inductive Generator where
  | enums
  | blocks
  | structs
deriving DecidableEq, Repr

/-- The generator takes care of the types with this body. -/
def Generator.serves : Generator → ResolvedBody → Bool
  | enums, .symbols _ | blocks, .fixed _ | structs, .record _ _ => true
  | _, _ => false

theorem Generator.existsUnique_serves (body : ResolvedBody) : ∃! g : Generator, g.serves body := by
  cases body with
  | record => exact ⟨structs, rfl, fun g hg => by cases g <;> first | rfl | cases hg⟩
  | symbols => exact ⟨enums, rfl, fun g hg => by cases g <;> first | rfl | cases hg⟩
  | fixed => exact ⟨blocks, rfl, fun g hg => by cases g <;> first | rfl | cases hg⟩

/-- The names of the definitions of types that a generator has put into the module, in order. -/
def Module.emitted (m : Module) : Generator → List String
  | .enums => m.enums.map EnumDef.name
  | .blocks => m.data.filterMap fun
    | .fixed d => some d.name
    | .struct _ => none
  | .structs => m.data.filterMap fun
    | .struct d => some d.name
    | .fixed _ => none

/-- Every generator emits one definition for each of the types that it takes care of. -/
theorem emitted_ofResolved (r : Resolved) (g : Generator) : (Module.ofResolved r).emitted g =
    (r.types.filter fun t => g.serves t.body).map ResolvedType.targetName := by
  simp only [Module.ofResolved]
  induction r.types with
  | nil => cases g <;> rfl
  | cons t types ih =>
    cases g <;> cases hbody : t.body <;>
      simpa [Module.emitted, enumOf?, dataOf?, hbody, Generator.serves] using ih

/-! ## Names that are backed -/

/-- Every name in the type of a mapped schema is that of a type, or of an enum that was
collected with it, and the collected enums are among the emitted ones, side by side. -/
structure Mapped.IsBacked (r : Resolved) (emitted : List UnionDef) (m : Mapped) : Prop where
  mentions : ∀ n ∈ m.type.mentions,
    (∃ t ∈ r.types, t.targetName = n) ∨ ∃ u ∈ m.unions, u.name = n
  collected : m.unions <:+: emitted

/-- The variant of a branch: its data is the branch mapped under the names of the enum and of
the variant. -/
def variantOf (r : Resolved) (enum : String) (b : Schema) : Variant :=
  ⟨branchName r b,
    if b.isNull then none else some (mapSchema r (enum ++ branchName r b) b).type⟩

/-- Every variant is that of a branch whose references are found, and the type of its data is
backed. -/
def UnionDef.IsBacked (r : Resolved) (emitted : List UnionDef) (u : UnionDef) : Prop :=
  ∀ v ∈ u.variants, ∃ branch : Schema, r.Knows branch ∧ v = variantOf r u.name branch ∧
    (mapSchema r (u.name ++ v.name) branch).IsBacked r emitted

theorem Mapped.IsBacked.mono {emitted emitted' : List UnionDef} {m : Mapped}
    (h : m.IsBacked r emitted) (hsub : emitted <:+: emitted') : m.IsBacked r emitted' :=
  ⟨h.mentions, h.collected.trans hsub⟩

theorem UnionDef.IsBacked.mono {emitted emitted' : List UnionDef} {u : UnionDef}
    (h : u.IsBacked r emitted) (hsub : emitted <:+: emitted') : u.IsBacked r emitted' := by
  intro v hv
  obtain ⟨branch, hknown, hvariant, hbacked⟩ := h v hv
  exact ⟨branch, hknown, hvariant, hbacked.mono hsub⟩

/-- A form around a type mentions no further names. -/
theorem Mapped.IsBacked.wrap {emitted : List UnionDef} {m : Mapped} (h : m.IsBacked r emitted)
    {form : TypeExpr → TypeExpr} (hform : ∀ type, (form type).mentions = type.mentions) :
    (m.wrap form).IsBacked r emitted :=
  ⟨fun n hn => h.mentions n (hform m.type ▸ hn), h.collected⟩

theorem infix_flatMap {α β : Type} {a : α} {as : List α} (h : a ∈ as) (f : α → List β) :
    f a <:+: as.flatMap f :=
  List.infix_of_mem_flatten (List.mem_map_of_mem h)

/-! ## Mapping unions -/

theorem mapSchema_of_optionalInner? {branches : List Schema} {inner : Schema}
    (h : (Schema.union branches).optionalInner? = some inner) (hint : String) :
    mapSchema r hint (.union branches) = (mapSchema r hint inner).wrap .optional := by
  rw [mapSchema, mapOptional?_eq, h, Option.map_some]

theorem mapBranches_eq (hint : String) (branches : List Schema) : mapBranches r hint branches =
    (branches.map (variantOf r hint),
      branches.flatMap fun b => (mapSchema r (hint ++ branchName r b) b).unions) := by
  induction branches with
  | nil => rfl
  | cons b branches ih =>
    rw [mapBranches, ih]
    by_cases hnull : b.isNull
    · obtain rfl := Schema.isNull_iff.1 hnull
      simp [variantOf, hnull, mapSchema]
    · simp [variantOf, hnull]

theorem mapSchema_of_optionalInner?_eq_none {branches : List Schema}
    (h : (Schema.union branches).optionalInner? = none) (hint : String) :
    mapSchema r hint (.union branches) =
      { type := .named hint
        unions := (branches.flatMap fun b => (mapSchema r (hint ++ branchName r b) b).unions) ++
          [⟨hint, branches.map (variantOf r hint)⟩] } := by
  rw [mapSchema, mapOptional?_eq, h, Option.map_none, mapBranches_eq]

/-! ## Mapping backs all names -/

/-- What mapping a schema gives is backed by what it collects: the type, and the data of the
variants of every enum. -/
theorem isBacked_mapSchema {s : Schema} (h : r.Knows s) (hint : String) :
    (mapSchema r hint s).IsBacked r (mapSchema r hint s).unions ∧
      ∀ u ∈ (mapSchema r hint s).unions, u.IsBacked r (mapSchema r hint s).unions := by
  induction s using Schema.induction generalizing hint with
  | primitive type =>
    refine ⟨⟨fun n hn => ?_, List.infix_rfl⟩, fun u hu => ?_⟩
    · cases type <;> simp [mapSchema, primitiveType, TypeExpr.mentions] at hn
    · simp [mapSchema] at hu
  | named name =>
    refine ⟨⟨fun n hn => .inl ?_, List.infix_rfl⟩, fun u hu => ?_⟩
    · obtain ⟨target, htarget⟩ := Option.isSome_iff_exists.1 (h name (by simp [Schema.references]))
      obtain ⟨t, ht, rfl⟩ := Option.map_eq_some_iff.1 htarget
      obtain rfl : n = t.targetName := by
        simpa [mapSchema, TypeExpr.mentions, referenceName, htarget] using hn
      exact ⟨t, Resolved.getType?_mem ht, rfl⟩
    · simp [mapSchema] at hu
  | array items ih =>
    rw [mapSchema]
    obtain ⟨htype, hunions⟩ := ih h (hint ++ "Item")
    exact ⟨htype.wrap fun _ => rfl, hunions⟩
  | map values ih =>
    rw [mapSchema]
    obtain ⟨htype, hunions⟩ := ih h (hint ++ "Value")
    exact ⟨htype.wrap fun _ => rfl, hunions⟩
  | union branches ih =>
    cases hinner : (Schema.union branches).optionalInner? with
    | some inner =>
      have hmem := Schema.mem_of_optionalInner? hinner
      obtain ⟨htype, hunions⟩ := ih inner hmem (h.of_mem hmem) hint
      rw [mapSchema_of_optionalInner? hinner]
      exact ⟨htype.wrap fun _ => rfl, hunions⟩
    | none =>
      rw [mapSchema_of_optionalInner?_eq_none hinner]
      -- what the branches collect stands in front of the enum itself
      have hbranch : ∀ b ∈ branches, (mapSchema r (hint ++ branchName r b) b).unions <:+:
          (branches.flatMap fun b => (mapSchema r (hint ++ branchName r b) b).unions) ++
            [⟨hint, branches.map (variantOf r hint)⟩] :=
        fun b hb => (infix_flatMap hb fun b =>
          (mapSchema r (hint ++ branchName r b) b).unions).trans (List.prefix_append _ _).isInfix
      refine ⟨⟨fun n hn => .inr ?_, List.infix_rfl⟩, fun u hu => ?_⟩
      · obtain rfl := List.mem_singleton.1 hn
        exact ⟨_, List.mem_append_right _ (List.mem_singleton_self _), rfl⟩
      obtain hu | hu := List.mem_append.1 hu
      · obtain ⟨b, hb, hu⟩ := List.mem_flatMap.1 hu
        exact ((ih b hb (h.of_mem hb) _).2 u hu).mono (hbranch b hb)
      · obtain rfl := List.mem_singleton.1 hu
        intro v hv
        obtain ⟨b, hb, rfl⟩ := List.mem_map.1 hv
        exact ⟨b, h.of_mem hb, rfl, (ih b hb (h.of_mem hb) _).1.mono (hbranch b hb)⟩

/-- The same for a field, whether it is boxed or not. -/
theorem isBacked_mapField {f : ResolvedField} (h : r.Knows f.schema) (owner ownerName : String) :
    (mapField r owner ownerName f).IsBacked r (mapField r owner ownerName f).unions ∧
      ∀ u ∈ (mapField r owner ownerName f).unions,
        u.IsBacked r (mapField r owner ownerName f).unions := by
  rw [mapField]
  split
  · split
    · rename_i inner hinner
      have hknown : r.Knows inner := by
        cases hs : f.schema with
        | union branches =>
          rw [hs] at h hinner
          exact h.of_mem (Schema.mem_of_optionalInner? hinner)
        | _ => rw [hs] at hinner; cases hinner
      obtain ⟨htype, hunions⟩ := isBacked_mapSchema hknown (ownerName ++ Name.pascalCase f.name)
      exact ⟨htype.wrap fun _ => rfl, hunions⟩
    · obtain ⟨htype, hunions⟩ := isBacked_mapSchema h (ownerName ++ Name.pascalCase f.name)
      exact ⟨htype.wrap fun _ => rfl, hunions⟩
  · exact isBacked_mapSchema h _

/-! ## Closed modules -/

/-- Everything in a service that mentions names is backed by its own enums, and its error type
has the errors of the messages for variants. -/
structure Service.IsClosed (r : Resolved) (s : Service) : Prop where
  /-- The types of parameters and answers, each mapped under its own hint. -/
  methods : ∀ f ∈ s.methods, ∃ m ∈ r.messages,
    (∀ x ∈ f.parameters, ∃ a ∈ m.request,
      x.type = (mapSchema r (Name.pascalCase m.name ++ Name.pascalCase a.name) a.schema).type ∧
      (mapSchema r (Name.pascalCase m.name ++ Name.pascalCase a.name) a.schema).IsBacked r
        s.unions) ∧
    ∀ type ∈ f.answer,
      type = (mapSchema r (Name.pascalCase m.name ++ "Response") m.response).type ∧
      (mapSchema r (Name.pascalCase m.name ++ "Response") m.response).IsBacked r s.unions
  unions : ∀ u ∈ s.unions, u.IsBacked r s.unions
  /-- The data of a variant of the error type is a type that can be thrown. -/
  errors : ∀ n ∈ s.errors, ∃ t ∈ r.types, t.IsError ∧ t.targetName = n
  /-- Every error of a message has a variant. -/
  thrown : ∀ m ∈ r.messages, ∀ e ∈ m.errors, ∃ t, r.getType? e = some t ∧ t.IsError ∧
    t.targetName ∈ s.errors

/-- Everything in a module that mentions names is backed, every reference is found, and every
type has one definition. -/
structure Module.IsClosed (r : Resolved) (m : Module) : Prop where
  /-- One generator takes care of each type. -/
  served : ∀ t ∈ r.types, ∃! g : Generator, g.serves t.body
  /-- What a generator emits are the types that it takes care of, under their names. -/
  emitted : ∀ g, m.emitted g =
    (r.types.filter fun t => g.serves t.body).map ResolvedType.targetName
  /-- No reference is named by its own simple name for lack of a type. -/
  known : ∀ s ∈ r.schemas, r.Knows s
  /-- The types of the members of structs. -/
  structs : ∀ d, DataDef.struct d ∈ m.data → ∃ t ∈ r.types, t.targetName = d.name ∧
    ∃ isError fields, t.body = .record isError fields ∧ ∀ x ∈ d.members, ∃ f ∈ fields,
      x.type = (mapField r t.fullName t.targetName f).type ∧
      (mapField r t.fullName t.targetName f).IsBacked r m.unions
  unions : ∀ u ∈ m.unions, u.IsBacked r m.unions
  service : ∀ s ∈ m.service, s.IsClosed r

theorem infix_unions_of_mem_fields {t : ResolvedType} (ht : t ∈ r.types) {isError : Bool}
    {fields : List ResolvedField} (hbody : t.body = .record isError fields) {f : ResolvedField}
    (hf : f ∈ fields) :
    (mapField r t.fullName t.targetName f).unions <:+: (Module.ofResolved r).unions := by
  have hdata : dataOf? r t = some (.struct ⟨t.targetName, t.doc, isError,
      (fields.map (memberOf r t)).map Prod.fst⟩, (fields.map (memberOf r t)).flatMap Prod.snd) := by
    rw [dataOf?, hbody]
  have hfield : (memberOf r t f).2 <:+: (fields.map (memberOf r t)).flatMap Prod.snd :=
    infix_flatMap (List.mem_map_of_mem hf) Prod.snd
  exact hfield.trans (infix_flatMap (List.mem_filterMap.2 ⟨t, ht, hdata⟩) Prod.snd)

/-- The schemas of a message with the hints that they are mapped under: those of the parameters,
and that of the response if the caller waits for one. -/
def messageParts (m : ResolvedMessage) : List (String × Schema) :=
  m.request.map (fun a => (Name.pascalCase m.name ++ Name.pascalCase a.name, a.schema)) ++
    if m.oneWay then [] else [(Name.pascalCase m.name ++ "Response", m.response)]

theorem unions_methodOf (m : ResolvedMessage) : (methodOf r m).2 =
    (messageParts m).flatMap fun part => (mapSchema r part.1 part.2).unions := by
  cases hway : m.oneWay <;> simp [methodOf, messageParts, hway, List.flatMap_map]

theorem mem_schemas_of_mem_messageParts {m : ResolvedMessage} (hm : m ∈ r.messages)
    {part : String × Schema} (hpart : part ∈ messageParts m) : part.2 ∈ r.schemas := by
  refine List.mem_append_right _ (List.mem_flatMap.2 ⟨m, hm, ?_⟩)
  obtain hpart | hpart := List.mem_append.1 hpart
  · obtain ⟨a, ha, rfl⟩ := List.mem_map.1 hpart
    exact List.mem_append_left _ (List.mem_map_of_mem ha)
  · split at hpart
    · cases hpart
    · obtain rfl := List.mem_singleton.1 hpart
      exact List.mem_append_right _ (List.mem_singleton_self _)

/-- What the service is, if there is one. -/
theorem eq_of_mem_serviceOf? {s : Service} (h : s ∈ serviceOf? r) :
    s.methods = (r.messages.map (methodOf r)).map Prod.fst ∧
      s.unions = (r.messages.map (methodOf r)).flatMap Prod.snd ∧ s.errors = declaredErrors r := by
  unfold serviceOf? at h
  split at h
  · cases h
  · obtain rfl := Option.some.inj h
    exact ⟨rfl, rfl, rfl⟩

theorem mem_foldl_appendNew {names acc : List String} {n : String} :
    n ∈ names.foldl appendNew acc ↔ n ∈ acc ∨ n ∈ names := by
  induction names generalizing acc with
  | nil => simp
  | cons name names ih =>
    rw [List.foldl_cons, ih, appendNew]
    by_cases h : name ∈ acc
    · simp only [List.contains_iff_mem, h, if_true, List.mem_cons]
      constructor
      · rintro (hn | hn) <;> simp [hn]
      · rintro (hn | rfl | hn) <;> simp [*]
    · simp [h, or_assoc]

/-- The variants of the error type are the names of the errors of the messages. -/
theorem mem_declaredErrors_iff {n : String} : n ∈ declaredErrors r ↔
    ∃ m ∈ r.messages, ∃ e ∈ m.errors, ∃ t, r.getType? e = some t ∧ t.targetName = n := by
  simp only [declaredErrors, mem_foldl_appendNew, List.not_mem_nil, false_or, List.mem_filterMap,
    List.mem_flatMap, Resolved.targetName?, Option.map_eq_some_iff]
  constructor
  · rintro ⟨e, ⟨m, hm, he⟩, t, ht, hname⟩
    exact ⟨m, hm, e, he, t, ht, hname⟩
  · rintro ⟨m, hm, e, he, t, ht, hname⟩
    exact ⟨e, ⟨m, hm, he⟩, t, ht, hname⟩

/-- The service of a resolved protocol is closed if every reference in the messages is found
and every error is a type that can be thrown. -/
theorem isClosed_serviceOf? (hknown : ∀ s ∈ r.schemas, r.Knows s)
    (herrors : ∀ m ∈ r.messages, ∀ e ∈ m.errors, ∃ t, r.getType? e = some t ∧ t.IsError)
    {s : Service} (hs : s ∈ serviceOf? r) : s.IsClosed r := by
  obtain ⟨hmethods, hunions, hdeclared⟩ := eq_of_mem_serviceOf? hs
  -- the enums of every part of a message are emitted side by side
  have hpart : ∀ m ∈ r.messages, ∀ part ∈ messageParts m,
      (mapSchema r part.1 part.2).unions <:+: s.unions := by
    intro m hm part hpart
    have hmessage : (mapSchema r part.1 part.2).unions <:+: (methodOf r m).2 := by
      rw [unions_methodOf]
      exact infix_flatMap hpart fun part => (mapSchema r part.1 part.2).unions
    rw [hunions]
    exact hmessage.trans (infix_flatMap (List.mem_map_of_mem hm) Prod.snd)
  have hbacked : ∀ m ∈ r.messages, ∀ part ∈ messageParts m,
      (mapSchema r part.1 part.2).IsBacked r s.unions := by
    intro m hm part hmem
    have hparts := hknown _ (mem_schemas_of_mem_messageParts hm hmem)
    exact (isBacked_mapSchema hparts part.1).1.mono (hpart m hm part hmem)
  refine ⟨fun f hf => ?_, fun u hu => ?_, fun n hn => ?_, fun m hm e he => ?_⟩
  · rw [hmethods, List.map_map] at hf
    obtain ⟨m, hm, rfl⟩ := List.mem_map.1 hf
    refine ⟨m, hm, fun x hx => ?_, fun type htype => ?_⟩
    · have hx : x ∈ m.request.map fun a => (⟨a.ident, a.doc,
          (mapSchema r (Name.pascalCase m.name ++ Name.pascalCase a.name) a.schema).type⟩ :
            MemberDef) := by
        cases hway : m.oneWay <;> simpa [methodOf, hway] using hx
      obtain ⟨a, ha, rfl⟩ := List.mem_map.1 hx
      exact ⟨a, ha, rfl, hbacked m hm _ (List.mem_append_left _ (List.mem_map.2 ⟨a, ha, rfl⟩))⟩
    · cases hway : m.oneWay with
      | true => simp [methodOf, hway] at htype
      | false =>
        have hresponse : (Name.pascalCase m.name ++ "Response", m.response) ∈ messageParts m := by
          simp [messageParts, hway]
        exact ⟨by simpa [methodOf, hway] using htype.symm, hbacked m hm _ hresponse⟩
  · rw [hunions, List.flatMap_map] at hu
    obtain ⟨m, hm, hu⟩ := List.mem_flatMap.1 hu
    rw [unions_methodOf] at hu
    obtain ⟨part, hmem, hu⟩ := List.mem_flatMap.1 hu
    have hparts := hknown _ (mem_schemas_of_mem_messageParts hm hmem)
    exact ((isBacked_mapSchema hparts part.1).2 u hu).mono (hpart m hm part hmem)
  · obtain ⟨m, hm, e, he, t, ht, rfl⟩ := mem_declaredErrors_iff.1 (hdeclared ▸ hn)
    obtain ⟨t', ht', herror⟩ := herrors m hm e he
    obtain rfl := Option.some.inj (ht.symm.trans ht')
    exact ⟨t, Resolved.getType?_mem ht, herror, rfl⟩
  · obtain ⟨t, ht, herror⟩ := herrors m hm e he
    exact ⟨t, ht, herror, hdeclared ▸ mem_declaredErrors_iff.2 ⟨m, hm, e, he, t, ht, rfl⟩⟩

theorem isClosed_of_wellFormed {p : Protocol} (hp : p.WellFormed) (hindexed : p.IsIndexed) :
    (Module.ofResolved (.ofProtocol p)).IsClosed (.ofProtocol p) := by
  have hknown : ∀ s ∈ (Resolved.ofProtocol p).schemas, (Resolved.ofProtocol p).Knows s :=
    fun s hs => hp.knows hindexed (hp.allowsSchema_of_mem_schemas hs)
  have hfield : ∀ {t : ResolvedType}, t ∈ (Resolved.ofProtocol p).types → ∀ {isError fields},
      t.body = .record isError fields → ∀ f ∈ fields, (Resolved.ofProtocol p).Knows f.schema :=
    fun ht _ _ hbody f hf => hp.knows hindexed (hp.allowsSchema_of_mem ht hbody hf)
  refine ⟨fun t _ => Generator.existsUnique_serves t.body, emitted_ofResolved _, hknown,
    fun d hd => ?_, fun u hu => ?_, fun s hs => ?_⟩
  · obtain ⟨⟨_, us⟩, hmem, rfl⟩ := List.mem_map.1 hd
    obtain ⟨t, ht, hdata⟩ := List.mem_filterMap.1 hmem
    unfold dataOf? at hdata
    split at hdata
    · cases hdata
    · rename_i isError fields hbody
      cases hdata
      refine ⟨t, ht, rfl, isError, fields, hbody, fun x hx => ?_⟩
      obtain ⟨_, hmember, rfl⟩ := List.mem_map.1 hx
      obtain ⟨f, hf, rfl⟩ := List.mem_map.1 hmember
      have hbacked := (isBacked_mapField (hfield ht hbody f hf) t.fullName t.targetName).1
      exact ⟨f, hf, rfl, hbacked.mono (infix_unions_of_mem_fields ht hbody hf)⟩
    · cases hdata
  · obtain ⟨t, ht, isError, fields, hbody, f, hf, hu⟩ := mem_unions_iff.1 hu
    exact ((isBacked_mapField (hfield ht hbody f hf) _ _).2 u hu).mono
      (infix_unions_of_mem_fields ht hbody hf)
  · exact isClosed_serviceOf? hknown (fun m hm e he => hp.exists_isError hindexed hm he) hs

/-- A record with an enum for one of its fields and a way back to itself, and a message that
answers with it or throws an error. -/
def shop : Protocol :=
  { (Protocol.empty "Shop" (some "org")).addTypes
      [{ name := "Item"
         body := .record false
           [{ name := "code", schema := .array (.union [.primitive .int, .primitive .string]) },
            { name := "related", schema := .union [.null, .named "Item"] }] },
       { name := "SoldOut"
         body := .record true [{ name := "item", schema := .named "Item" }] }] with
    messages := [{
      name := "find"
      request := [{ name := "size", schema := .map (.named "Item") }]
      response := .union [.named "Item", .named "SoldOut"]
      errors := ["SoldOut"] }] }

end Target

end IdlCompiler
