/-
# Names at the top level of generated code

The items of a module are its enums of symbols, its definitions with data, the enums of its
unions, and the error type and the trait of its service.  Their names are put together from
words of the protocol with nothing between the words, so that items may have the same name
although the names in the protocol differ.

A slot is a place of the protocol that has a schema, with the hint for the names of the enums
in the schema.  `Target.itemNames_perm` says what the names of the items are: those of the
types, those of the enums of each slot, and the two names of the service.  The main statement,
`Target.itemNames_apart_iff`, is the exact condition under which the names differ and none of
them is a name that generated code uses as it stands.
-/
import IdlCompiler.Proofs.UnionNames

namespace IdlCompiler

/-! ## Slots -/

/-- A place with a schema, and the hint that its schema is mapped under. -/
structure Slot where
  hint : String
  schema : Schema

namespace Slot

/-- The names of the enums that the schema of a slot needs. -/
def enumNames (s : Slot) : List String := s.schema.enumEndings.map (s.hint ++ ·)

/-- The slots of fields or parameters of an owner. -/
def ofFields (owner : String) (fields : List Field) : List Slot :=
  fields.map fun f => ⟨owner ++ Target.Name.pascalCase f.name, f.schema⟩

end Slot

/-- The name of a type in generated code. -/
def NamedType.targetName (t : NamedType) : String := Target.Name.pascalCase t.name

/-- The slots of a type. -/
def NamedType.slots (t : NamedType) : List Slot :=
  match t.body with
  | .record _ fields => Slot.ofFields t.targetName fields
  | _ => []

/-- The slots of a message: its parameters, and its response if the caller waits for one. -/
def Message.slots (m : Message) : List Slot :=
  Slot.ofFields (Target.Name.pascalCase m.name) m.request ++
    if m.oneWay then [] else [⟨Target.Name.pascalCase m.name ++ "Response", m.response⟩]

namespace Protocol

/-- The slots of a protocol. -/
def slots (p : Protocol) : List Slot :=
  p.types.flatMap NamedType.slots ++ p.messages.flatMap Message.slots

/-- The names of the error type and of the trait of a protocol with messages. -/
def serviceNames (p : Protocol) : List String :=
  if p.messages.isEmpty then []
  else [Target.errorName (.ofProtocol p), Target.traitName (.ofProtocol p)]

end Protocol

namespace Target

/-- The names of the standard library that generated code uses without a path. -/
def standardNames : List String := ["String", "Vec", "Option", "Box", "Result"]

/-- The names of the items of a service. -/
def Service.itemNames (s : Service) : List String :=
  s.errorName :: s.traitName :: s.unions.map UnionDef.name

/-- The names of the items of a module, in order. -/
def Module.itemNames (m : Module) : List String :=
  m.enums.map EnumDef.name ++ m.data.map DataDef.name ++ m.unions.map UnionDef.name
    ++ m.service.elim [] Service.itemNames

variable {p : Protocol}

/-! ## The names of the items -/

/-- Every type is the enum or the definition with data of its name. -/
theorem map_name_types_perm (r : Resolved) : ((Module.ofResolved r).enums.map EnumDef.name
    ++ (Module.ofResolved r).data.map DataDef.name).Perm (r.types.map ResolvedType.targetName) := by
  simp only [Module.ofResolved]
  induction r.types with
  | nil => simp
  | cons t types ih =>
    have hmiddle := List.perm_middle.trans (ih.cons t.targetName)
    cases hbody : t.body with
    | symbols symbols => simpa [enumOf?, dataOf?, hbody] using ih
    | fixed size => simpa [enumOf?, dataOf?, hbody, DataDef.name] using hmiddle
    | record isError fields => simpa [enumOf?, dataOf?, hbody, DataDef.name] using hmiddle

/-- The enums that the data of a type needs are those of its slots. -/
theorem map_name_dataOf? (r : Resolved) (t : NamedType) :
    ((dataOf? r (.ofType p t)).elim [] Prod.snd).map UnionDef.name =
      t.slots.flatMap Slot.enumNames := by
  cases hbody : t.body <;>
    simp [dataOf?, ResolvedType.ofType, ResolvedBody.ofBody, hbody, NamedType.slots, Slot.ofFields,
      List.flatMap_map, List.map_flatMap, memberOf, map_name_mapField, Slot.enumNames,
      ResolvedField.ofField, NamedType.targetName]

/-- The enums that a method needs are those of the slots of its message. -/
theorem map_name_methodOf (r : Resolved) (m : Message) :
    (methodOf r (.ofMessage p m)).2.map UnionDef.name = m.slots.flatMap Slot.enumNames := by
  cases hway : m.oneWay <;>
    simp [methodOf, ResolvedMessage.ofMessage, hway, Message.slots, Slot.ofFields,
      List.flatMap_map, List.map_flatMap, map_name_mapSchema, Slot.enumNames,
      ResolvedField.ofField]

theorem map_name_unions (p : Protocol) :
    (Module.ofResolved (.ofProtocol p)).unions.map UnionDef.name =
      (p.types.flatMap NamedType.slots).flatMap Slot.enumNames := by
  have hflat : ∀ (r : Resolved) (types : List NamedType),
      (((types.map (.ofType p)).filterMap (dataOf? r)).flatMap Prod.snd).map UnionDef.name =
        (types.flatMap NamedType.slots).flatMap Slot.enumNames := by
    intro r types
    induction types with
    | nil => rfl
    | cons t types ih =>
      have ht := map_name_dataOf? (p := p) r t
      cases hdata : dataOf? r (.ofType p t) <;> simp_all
  exact hflat _ _

theorem map_name_flatMap_methodOf (p : Protocol) :
    (((Resolved.ofProtocol p).messages.map (methodOf (.ofProtocol p))).flatMap Prod.snd).map
      UnionDef.name = (p.messages.flatMap Message.slots).flatMap Slot.enumNames := by
  have hmessages : (Resolved.ofProtocol p).messages = p.messages.map (.ofMessage p) := rfl
  simp only [hmessages, List.flatMap_map, List.map_flatMap, List.flatMap_assoc, map_name_methodOf]

/-- The items of the service have the names of the enums of the messages' slots, and its own. -/
theorem itemNames_service_perm (p : Protocol) :
    ((Module.ofResolved (.ofProtocol p)).service.elim [] Service.itemNames).Perm
      ((p.messages.flatMap Message.slots).flatMap Slot.enumNames ++ p.serviceNames) := by
  have hmessages : (Resolved.ofProtocol p).messages = p.messages.map (.ofMessage p) := rfl
  simp only [Module.ofResolved, serviceOf?, Protocol.serviceNames]
  by_cases h : p.messages.isEmpty
  · simp [hmessages, List.isEmpty_iff.1 h]
  · rw [if_neg (by simpa [hmessages] using h), if_neg h]
    simp only [Option.elim_some, Service.itemNames, map_name_flatMap_methodOf]
    exact @List.perm_append_comm _ [_, _] _

/-- The items of a module have the names of the types, those of the enums of the slots, and
those of the error type and the trait. -/
theorem itemNames_perm (p : Protocol) : (Module.ofResolved (.ofProtocol p)).itemNames.Perm
    (p.types.map NamedType.targetName ++ p.slots.flatMap Slot.enumNames ++ p.serviceNames) := by
  have htypes : (Resolved.ofProtocol p).types.map ResolvedType.targetName =
      p.types.map NamedType.targetName := by
    simp [Resolved.ofProtocol, ResolvedType.ofType, NamedType.targetName]
  have hdata := htypes ▸ map_name_types_perm (.ofProtocol p)
  rw [Module.itemNames, map_name_unions, Protocol.slots, List.flatMap_append]
  simpa only [List.append_assoc] using
    (hdata.append_right _).append (itemNames_service_perm p)

end Target

/-! ## Names that no enum inside a schema has -/

namespace Protocol

variable {p : Protocol}

/-- The schemas of the slots are among those that the check of the protocol looks at. -/
theorem WellFormed.allowsSchema_of_mem_slots (hp : p.WellFormed) {s : Slot} (hs : s ∈ p.slots) :
    p.AllowsSchema s.schema := by
  have hfields : ∀ {owner : String} {fields : List Field}, p.AllowsFields fields →
      s ∈ Slot.ofFields owner fields → p.AllowsSchema s.schema := by
    intro owner fields hallows hs
    obtain ⟨f, hf, rfl⟩ := List.mem_map.1 hs
    exact hallows.schema f hf
  simp only [slots, List.mem_append, List.mem_flatMap] at hs
  obtain ⟨t, ht, hs⟩ | ⟨m, hm, hs⟩ := hs
  · have hbody := (hp.types t ht).body
    cases hkind : t.body <;> rw [hkind] at hbody <;> simp only [NamedType.slots, hkind] at hs
    · exact hfields hbody hs
    · simp at hs
    · simp at hs
  · obtain hs | hs := List.mem_append.1 hs
    · exact hfields (hp.messages m hm).request hs
    · split at hs
      · simp at hs
      · obtain rfl := List.mem_singleton.1 hs
        exact (hp.messages m hm).response

/-- A name that does not end inside a schema is the name of an enum of a slot exactly if it is
the hint, and the schema of the slot is an enum itself. -/
theorem mem_enumNames_iff {s : Slot} (h : p.AllowsSchema s.schema) {name : String}
    (hname : ¬ EndsInside name) : name ∈ s.enumNames ↔ s.schema.NeedsEnum ∧ name = s.hint := by
  rw [← empty_mem_enumEndings_iff h]
  constructor
  · intro hmem
    obtain ⟨e, he, rfl⟩ := List.mem_map.1 hmem
    obtain ⟨rfl, -⟩ | hinside := endsInside_of_mem_enumEndings h he
    · exact ⟨he, String.append_empty⟩
    · exact absurd (hinside.append s.hint) hname
  · rintro ⟨he, rfl⟩
    exact List.mem_map.2 ⟨"", he, String.append_empty⟩

theorem not_endsInside_of_mem_standardNames {name : String} (h : name ∈ Target.standardNames) :
    ¬ EndsInside name := by
  intro hinside
  have hlast := hinside.getLast?
  simp only [Target.standardNames, List.mem_cons, List.not_mem_nil, or_false] at h
  obtain rfl | rfl | rfl | rfl | rfl := h <;> simp at hlast

theorem mem_serviceNames_iff {name : String} : name ∈ p.serviceNames ↔ p.messages ≠ [] ∧
    (name = Target.Name.pascalCase p.name ++ "Error" ∨
      name = Target.Name.pascalCase p.name ++ "Protocol") := by
  rw [serviceNames]
  by_cases h : p.messages = [] <;>
    simp [h, Target.errorName, Target.traitName, Resolved.ofProtocol]

theorem getLast?_of_mem_serviceNames {name : String} (h : name ∈ p.serviceNames) :
    name.toList.getLast? = some 'r' ∨ name.toList.getLast? = some 'l' := by
  obtain ⟨-, rfl | rfl⟩ := mem_serviceNames_iff.1 h <;>
    simp [String.toList_append, List.getLast?_append]

theorem not_endsInside_of_mem_serviceNames {name : String} (h : name ∈ p.serviceNames) :
    ¬ EndsInside name := by
  intro hinside
  obtain h | h := getLast?_of_mem_serviceNames h <;> simpa [h] using hinside.getLast?

/-- The error type and the trait have different names, and no standard ones. -/
theorem nodup_serviceNames (p : Protocol) : p.serviceNames.Nodup := by
  rw [serviceNames]
  split
  · simp
  · simp only [Target.errorName, Target.traitName, List.nodup_cons, List.mem_singleton,
      List.not_mem_nil, not_false_eq_true, List.nodup_nil, and_true]
    exact fun h => absurd ((String.append_right_inj _).1 h) (by decide)

theorem notMem_standardNames_of_mem_serviceNames {name : String} (h : name ∈ p.serviceNames) :
    name ∉ Target.standardNames := by
  intro hstandard
  have hlast := getLast?_of_mem_serviceNames h
  simp only [Target.standardNames, List.mem_cons, List.not_mem_nil, or_false] at hstandard
  obtain rfl | rfl | rfl | rfl | rfl := hstandard <;> simp at hlast

/-- The names in a protocol keep the items of its generated code apart. -/
structure KeepsItemsApart (p : Protocol) : Prop where
  /-- Types still differ when they are spelled with capitals. -/
  types : (p.types.map NamedType.targetName).Nodup
  /-- Enums of different slots have different names. -/
  slots : p.slots.Pairwise fun a b =>
    ∀ d ∈ a.schema.enumEndings, ∀ e ∈ b.schema.enumEndings, a.hint ++ d ≠ b.hint ++ e
  /-- No type is called like an enum of a slot. -/
  types_slots : ∀ t ∈ p.types, ∀ s ∈ p.slots, ∀ e ∈ s.schema.enumEndings,
    t.targetName ≠ s.hint ++ e
  /-- No type and no slot that is an enum itself is called like a standard type, nor like the
  error type or the trait. -/
  reserved : ∀ name ∈ Target.standardNames ++ p.serviceNames,
    (∀ t ∈ p.types, t.targetName ≠ name) ∧ ∀ s ∈ p.slots, s.schema.NeedsEnum → s.hint ≠ name

end Protocol

/-! ## When the names differ -/

namespace Target

variable {p : Protocol}

/-- The names of the enums of all slots differ if those of different slots do. -/
theorem nodup_enumNames_iff (hp : p.WellFormed) : (p.slots.flatMap Slot.enumNames).Nodup ↔
    p.slots.Pairwise fun a b =>
      ∀ d ∈ a.schema.enumEndings, ∀ e ∈ b.schema.enumEndings, a.hint ++ d ≠ b.hint ++ e := by
  have hown : ∀ s ∈ p.slots, s.enumNames.Nodup := by
    intro s hs
    refine (Protocol.nodup_enumEndings (hp.allowsSchema_of_mem_slots hs)).map ?_
    exact fun _ _ => (String.append_right_inj _).1
  have hdisjoint : ∀ a b : Slot, a.enumNames.Disjoint b.enumNames ↔
      ∀ d ∈ a.schema.enumEndings, ∀ e ∈ b.schema.enumEndings, a.hint ++ d ≠ b.hint ++ e := by
    intro a b
    simp only [Slot.enumNames, List.disjoint_left, List.mem_map, not_exists, not_and]
    exact ⟨fun h d hd e he heq => h ⟨d, hd, rfl⟩ e he heq.symm, fun h _ => by
      rintro ⟨d, hd, rfl⟩ e he heq
      exact h d hd e he heq.symm⟩
  rw [List.nodup_flatMap]
  refine (and_iff_right hown).trans (List.Pairwise.iff fun {a b} => ?_)
  exact hdisjoint a b

/-- **When items are told apart.**  The items of the code that is generated for a well-formed
protocol have different names, none of them a standard one, exactly if the names in the
protocol keep them apart.  The enums of one slot always differ from each other, as do the error
type and the trait; of the enums, only one that is the schema of its slot can be called like a
standard type, the error type or the trait. -/
theorem itemNames_apart_iff (hvalid : p.validate = .ok ()) :
    ((Module.ofResolved (.ofProtocol p)).itemNames.Nodup ∧
      ∀ name ∈ (Module.ofResolved (.ofProtocol p)).itemNames, name ∉ standardNames) ↔
        p.KeepsItemsApart := by
  have hp := Protocol.validate_eq_ok_iff.1 hvalid
  -- a reserved name is never that of an enum inside a schema
  have hreserved : ∀ s ∈ p.slots, ∀ name ∈ standardNames ++ p.serviceNames,
      (name ∈ s.enumNames ↔ s.schema.NeedsEnum ∧ name = s.hint) := by
    intro s hs name hname
    refine Protocol.mem_enumNames_iff (hp.allowsSchema_of_mem_slots hs) ?_
    exact (List.mem_append.1 hname).elim Protocol.not_endsInside_of_mem_standardNames
      Protocol.not_endsInside_of_mem_serviceNames
  rw [(itemNames_perm p).nodup_iff]
  simp only [(itemNames_perm p).mem_iff, List.nodup_append, nodup_enumNames_iff hp,
    Protocol.nodup_serviceNames, true_and]
  constructor
  · rintro ⟨⟨⟨htypes, hslots, hmixed⟩, hservice⟩, hstandard⟩
    refine ⟨htypes, hslots, ?_, ?_⟩
    · intro t ht s hs e he
      exact hmixed _ (List.mem_map_of_mem ht) _
        (List.mem_flatMap.2 ⟨s, hs, List.mem_map_of_mem he⟩)
    · intro name hname
      have hne : ∀ item ∈ p.types.map NamedType.targetName ++ p.slots.flatMap Slot.enumNames,
          item ≠ name := by
        rintro item hitem rfl
        obtain hname | hname := List.mem_append.1 hname
        · exact hstandard _ (List.mem_append_left _ hitem) hname
        · exact hservice _ hitem _ hname rfl
      refine ⟨fun t ht => hne _ (List.mem_append_left _ (List.mem_map_of_mem ht)), ?_⟩
      rintro s hs henum rfl
      refine hne _ (List.mem_append_right _ (List.mem_flatMap.2 ⟨s, hs, ?_⟩)) rfl
      exact (hreserved s hs _ hname).2 ⟨henum, rfl⟩
  · rintro ⟨htypes, hslots, hmixed, hnames⟩
    have hne : ∀ item ∈ p.types.map NamedType.targetName ++ p.slots.flatMap Slot.enumNames,
        ∀ name ∈ standardNames ++ p.serviceNames, item ≠ name := by
      rintro item hitem name hname rfl
      obtain hitem | hitem := List.mem_append.1 hitem
      · obtain ⟨t, ht, rfl⟩ := List.mem_map.1 hitem
        exact (hnames _ hname).1 t ht rfl
      · obtain ⟨s, hs, hitem⟩ := List.mem_flatMap.1 hitem
        obtain ⟨henum, hhint⟩ := (hreserved s hs _ hname).1 hitem
        exact (hnames _ hname).2 s hs henum hhint.symm
    refine ⟨⟨⟨htypes, hslots, ?_⟩, fun item hitem name hname => ?_⟩, fun item hitem hstandard => ?_⟩
    · rintro _ htype _ henum rfl
      obtain ⟨t, ht, htype⟩ := List.mem_map.1 htype
      obtain ⟨s, hs, henum⟩ := List.mem_flatMap.1 henum
      obtain ⟨e, he, rfl⟩ := List.mem_map.1 henum
      exact hmixed t ht s hs e he htype
    · exact hne item hitem name (List.mem_append_right _ hname)
    · obtain hitem | hitem := List.mem_append.1 hitem
      · exact hne item hitem item (List.mem_append_left _ hstandard) rfl
      · exact Protocol.notMem_standardNames_of_mem_serviceNames hitem hstandard

/-- Two records whose names differ in an underscore and in a capital. -/
def fooBars : Protocol :=
  (Protocol.empty "P" none).addTypes
    [{ name := "foo_bar", body := .record false [] }, { name := "FooBar", body := .record false [] }]

/-- A record with a union, and a message that answers with one. -/
def forecast : Protocol :=
  { (Protocol.empty "Weather" none).addTypes [{
      name := "report"
      body := .record false
        [{ name := "wind", schema := .union [.primitive .int, .primitive .string] }] }] with
    messages := [{ name := "ask", response := .union [.named "report", .primitive .string] }] }

/-- The records have one name in generated code, where all items of the other protocol are told
apart. -/
theorem fooBars_clash :
    fooBars.validate = .ok () ∧
      ¬ ((Module.ofResolved (.ofProtocol fooBars)).itemNames.Nodup ∧
        ∀ name ∈ (Module.ofResolved (.ofProtocol fooBars)).itemNames, name ∉ standardNames) ∧
      forecast.validate = .ok () ∧
      ((Module.ofResolved (.ofProtocol forecast)).itemNames.Nodup ∧
        ∀ name ∈ (Module.ofResolved (.ofProtocol forecast)).itemNames, name ∉ standardNames) := by
  refine ⟨rfl, fun h => ?_, rfl, (itemNames_apart_iff (p := forecast) rfl).2 ?_⟩
  · exact absurd ((itemNames_apart_iff (p := fooBars) rfl).1 h).types (by decide)
  · have hslots : ∀ name ∈ standardNames ++ forecast.serviceNames,
        (∀ t ∈ forecast.types, t.targetName ≠ name) ∧ ∀ s ∈ forecast.slots, s.hint ≠ name := by
      decide +kernel
    exact ⟨by decide, by decide +kernel, by decide +kernel,
      fun name hname => ⟨(hslots name hname).1, fun s hs _ => (hslots name hname).2 s hs⟩⟩

end Target

end IdlCompiler
