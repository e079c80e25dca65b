/-
# Reading a document that was written from a protocol

The document of a protocol leaves out every property whose key has a meaning somewhere in a
document, also where the key has none at its place and the reader takes it for a custom
property.  So the document does not show the protocol itself but `Protocol.shown`, and this is
what it is read as, `Protocol.ofJson_toJson_eq_shown`.

What is read from a document has its lookup, distinct messages and plain references, whatever
the document is.  So a protocol is read back from its own document exactly if the document can
express it, `Protocol.ofJson_toJson_iff`, and of what was read from another document only
properties are lost, `Protocol.ofJson_toJson_of_ofJson`.
-/
import IdlCompiler.Proofs.Lowering
import IdlCompiler.Protocol.Equality

namespace IdlCompiler

open Json (Members)

/-! ## What a document shows -/

/-- The field without the properties that documents leave out. -/
def Field.shown (f : Field) : Field := { f with properties := Canonical.custom f.properties }

/-- The body without the properties that documents leave out. -/
def TypeBody.shown : TypeBody → TypeBody
  | record isError fields => record isError (fields.map Field.shown)
  | symbols names => symbols names
  | fixed size => fixed size

/-- The type without the properties that documents leave out. -/
def NamedType.shown (t : NamedType) : NamedType :=
  { t with properties := Canonical.custom t.properties, body := t.body.shown }

/-- The message without the properties that documents leave out. -/
def Message.shown (m : Message) : Message :=
  { m with properties := Canonical.custom m.properties, request := m.request.map Field.shown }

/-- The protocol without the properties that documents leave out. -/
def Protocol.shown (p : Protocol) : Protocol :=
  { p with
    properties := Canonical.custom p.properties
    types := p.types.map NamedType.shown
    messages := p.messages.map Message.shown }

/-- No property has a key with a meaning somewhere in a document. -/
abbrev Conditions.custom : Conditions := ⟨Properties.AreCustom, fun _ => True, fun _ => True⟩

/-- References have no names of primitive types. -/
abbrev Conditions.plain : Conditions := ⟨fun _ => True, fun _ => True, Schema.HasPlainReferences⟩

namespace Canonical

variable {properties : Properties}

theorem areCustom_custom : Properties.AreCustom (custom properties) := by
  intro m hm
  simpa using (List.mem_filter.mp hm).2

@[simp] theorem custom_custom : custom (custom properties) = custom properties :=
  custom_eq areCustom_custom

@[simp] theorem ofField_shown (f : Field) : ofField f.shown = ofField f := by
  simp [ofField, Field.shown]

@[simp] theorem map_ofField_shown (fields : List Field) :
    (fields.map Field.shown).map ofField = fields.map ofField := by
  rw [List.map_map]
  exact List.map_congr_left fun f _ => ofField_shown f

@[simp] theorem ofBody_shown (body : TypeBody) : ofBody body.shown = ofBody body := by
  cases body with
  | record isError fields => simp only [ofBody, TypeBody.shown, map_ofField_shown]
  | symbols names => rfl
  | fixed size => rfl

@[simp] theorem ofType_shown (t : NamedType) : ofType t.shown = ofType t := by
  have hkind : t.shown.kindName = t.kindName := by
    obtain ⟨head, body⟩ := t
    cases body <;> rfl
  have hbody : ofBody t.shown.body = ofBody t.body := ofBody_shown t.body
  rw [ofType, hkind, hbody]
  simp [ofType, NamedType.shown]

@[simp] theorem ofMessage_shown (m : Message) : ofMessage m.shown = ofMessage m := by
  simp only [ofMessage, Message.shown, custom_custom, map_ofField_shown]
  rfl

end Canonical

namespace Protocol

variable {p : Protocol}

/-- A protocol and what its document shows of it have the same document. -/
theorem toJson_shown : p.shown.toJson = p.toJson := by
  have hname : ∀ m : Message, m.shown.name = m.name := fun _ => rfl
  simp [toJson, shown, Canonical.ofMessages, Function.comp_def, hname]

end Protocol

/-! ## What is lost -/

theorem map_eq_self_iff {α : Type} {f : α → α} {as : List α} :
    as.map f = as ↔ ∀ a ∈ as, f a = a := by
  simpa using List.map_eq_map_iff (f := f) (g := id) (l := as)

theorem sameList_map_self_iff {α : Type} {same : α → α → Bool} {f : α → α} {as : List α} :
    sameList same (as.map f) as ↔ ∀ a ∈ as, same (f a) a := by
  induction as with
  | nil => simp [sameList]
  | cons a as ih => simp [sameList, ih]

theorem Properties.areCustom_of_same {properties : Properties}
    (h : Properties.same (Canonical.custom properties) properties) :
    Properties.AreCustom properties := by
  simp only [Properties.same, Json.same, Bool.and_eq_true, beq_iff_eq] at h
  intro m hm
  simpa using List.length_filter_eq_length_iff.mp h.1 m hm

namespace Field

variable {f : Field}

theorem shown_eq_self (h : f.Meets .custom) : f.shown = f := by
  rw [shown, Canonical.custom_eq h.properties]

theorem meets_custom_of_same (h : f.shown.same f) : f.Meets .custom := by
  obtain ⟨-, -, -, -, hproperties⟩ := same_iff.mp h
  exact ⟨Properties.areCustom_of_same hproperties, fun _ _ => trivial, trivial⟩

end Field

namespace TypeBody

variable {body : TypeBody}

theorem shown_eq_self (h : body.Meets .custom) : body.shown = body := by
  cases body with
  | record isError fields =>
    rw [shown, map_eq_self_iff.mpr fun f hf => Field.shown_eq_self (h f hf)]
  | symbols names => rfl
  | fixed size => rfl

theorem meets_custom_of_same (h : body.shown.same body) : body.Meets .custom := by
  cases body with
  | record isError fields =>
    obtain ⟨-, hfields⟩ := same_record_iff.mp h
    exact fun f hf => Field.meets_custom_of_same (sameList_map_self_iff.mp hfields f hf)
  | symbols names => trivial
  | fixed size => trivial

end TypeBody

namespace NamedType

variable {t : NamedType}

theorem shown_eq_self (h : t.Meets .custom) : t.shown = t := by
  rw [shown, Canonical.custom_eq h.properties, TypeBody.shown_eq_self h.body]

theorem meets_custom_of_same (h : t.shown.same t) : t.Meets .custom := by
  obtain ⟨-, -, -, hproperties, hbody⟩ := same_iff.mp h
  exact ⟨Properties.areCustom_of_same hproperties, TypeBody.meets_custom_of_same hbody⟩

end NamedType

namespace Message

variable {m : Message}

theorem shown_eq_self (h : m.Meets .custom) : m.shown = m := by
  rw [shown, Canonical.custom_eq h.properties,
    map_eq_self_iff.mpr fun f hf => Field.shown_eq_self (h.request f hf)]

theorem meets_custom_of_same (h : m.shown.same m) : m.Meets .custom := by
  obtain ⟨-, -, hproperties, hrequest, -⟩ := same_iff.mp h
  exact ⟨Properties.areCustom_of_same hproperties,
    fun f hf => Field.meets_custom_of_same (sameList_map_self_iff.mp hrequest f hf), trivial⟩

end Message

namespace Protocol

variable {p : Protocol}

/-- A protocol whose properties are all custom is shown as it is. -/
theorem shown_eq_self (h : p.Meets .custom) : p.shown = p := by
  rw [shown, Canonical.custom_eq h.properties,
    map_eq_self_iff.mpr fun t ht => NamedType.shown_eq_self (h.types t ht),
    map_eq_self_iff.mpr fun m hm => Message.shown_eq_self (h.messages m hm)]

/-- A lost property makes a difference. -/
theorem meets_custom_of_same (h : p.shown.same p) : p.Meets .custom := by
  obtain ⟨-, -, -, hproperties, htypes, hmessages, -⟩ := same_iff.mp h
  exact ⟨Properties.areCustom_of_same hproperties,
    fun t ht => NamedType.meets_custom_of_same (sameList_map_self_iff.mp htypes t ht),
    fun m hm => Message.meets_custom_of_same (sameList_map_self_iff.mp hmessages m hm)⟩

end Protocol

/-! ## What the document is read as -/

/-- What meets the conditions `c` is shown as something that meets `d`. -/
structure Conditions.ShownAs (c d : Conditions) : Prop where
  properties : ∀ ps, c.properties ps → d.properties (Canonical.custom ps)
  default : ∀ v, c.default v → d.default v
  schema : ∀ s, c.schema s → d.schema s

section ShownAs

variable {c d : Conditions}

theorem Field.Meets.shown {f : Field} (h : f.Meets c) (hcd : c.ShownAs d) : f.shown.Meets d :=
  ⟨hcd.properties _ h.properties, fun v hv => hcd.default v (h.default v hv),
    hcd.schema _ h.schema⟩

theorem forall_mem_fields_shown {fields : List Field} (h : ∀ f ∈ fields, f.Meets c)
    (hcd : c.ShownAs d) : ∀ f ∈ fields.map Field.shown, f.Meets d := by
  simpa using fun f hf => (h f hf).shown hcd

theorem TypeBody.Meets.shown {body : TypeBody} (h : body.Meets c) (hcd : c.ShownAs d) :
    body.shown.Meets d := by
  cases body with
  | record isError fields => exact forall_mem_fields_shown h hcd
  | symbols names => trivial
  | fixed size => trivial

theorem NamedType.Meets.shown {t : NamedType} (h : t.Meets c) (hcd : c.ShownAs d) :
    t.shown.Meets d :=
  ⟨hcd.properties _ h.properties, TypeBody.Meets.shown h.body hcd⟩

theorem Message.Meets.shown {m : Message} (h : m.Meets c) (hcd : c.ShownAs d) :
    m.shown.Meets d :=
  ⟨hcd.properties _ h.properties, forall_mem_fields_shown h.request hcd,
    hcd.schema _ h.response⟩

theorem Protocol.Meets.shown {p : Protocol} (h : p.Meets c) (hcd : c.ShownAs d) :
    p.shown.Meets d := by
  refine ⟨hcd.properties _ h.properties, fun t ht => ?_, fun m hm => ?_⟩
  · obtain ⟨u, hu, rfl⟩ := List.mem_map.mp ht
    exact (h.types u hu).shown hcd
  · obtain ⟨n, hn, rfl⟩ := List.mem_map.mp hm
    exact (h.messages n hn).shown hcd

end ShownAs

theorem Conditions.plain_shownAs_expressible : Conditions.plain.ShownAs .expressible :=
  ⟨fun _ _ => Canonical.areCustom_custom, fun _ _ => trivial, fun _ h => h⟩

namespace Protocol

variable {p : Protocol}

theorem map_fullNameOf_shown (p : Protocol) :
    p.shown.types.map p.shown.fullNameOf = p.types.map p.fullNameOf := by
  simp only [Protocol.shown, List.map_map]
  exact List.map_congr_left fun _ _ => rfl

theorem map_name_messages_shown (p : Protocol) :
    p.shown.messages.map Message.name = p.messages.map Message.name := by
  simp only [shown, List.map_map]
  exact List.map_congr_left fun _ _ => rfl

theorem IsIndexed.shown (h : p.IsIndexed) : p.shown.IsIndexed := by
  rw [isIndexed_iff] at h ⊢
  rw [map_fullNameOf_shown]
  exact h

/-- **The document of a protocol is read as what it shows of the protocol**, if the messages,
the lookup and the references are as in everything that is read. -/
theorem ofJson_toJson_eq_shown (hplain : p.Meets .plain)
    (hnodup : (p.messages.map Message.name).Nodup) (hindexed : p.IsIndexed) :
    ofJson p.toJson = .ok p.shown := by
  rw [← toJson_shown]
  exact ofJson_toJson ⟨hplain.shown Conditions.plain_shownAs_expressible,
    (map_name_messages_shown p).symm ▸ hnodup, hindexed.shown⟩

end Protocol

/-! ## What is read from a document -/

namespace Document

variable {members : Members} {part : DocumentPart} {v : Json}

theorem readSchemas_eq_mapM (vs : List Json) : readSchemas vs = vs.mapM readSchema := by
  induction vs with
  | nil => rfl
  | cons v vs ih => rw [readSchemas, List.mapM_cons, ih]

theorem readSchemaAt?_eq (members : Members) (key : String) :
    readSchemaAt? members key = match Members.get? members key with
      | none => .ok none
      | some v => some <$> readSchema v := by
  induction members with
  | nil => rfl
  | cons m rest ih =>
    obtain ⟨k, v⟩ := m
    by_cases hk : k = key <;> simp [readSchemaAt?, Members.get?, hk, ih]

/-- The schema under a key is read from the value of a member. -/
theorem exists_mem_of_readSchemaAt? {key : String} {s : Schema}
    (h : readSchemaAt? members key = .ok (some s)) : ∃ m ∈ members, readSchema m.2 = .ok s := by
  rw [readSchemaAt?_eq] at h
  split at h
  · cases h
  · rename_i v hv
    refine ⟨(key, v), Members.mem_of_get? hv, ?_⟩
    cases hs : readSchema v with
    | error e =>
      rw [hs] at h
      cases h
    | ok s' =>
      rw [hs] at h
      cases h
      rfl

theorem hasPlainReferences_primitive (type : Primitive) :
    (Schema.primitive type).HasPlainReferences := by
  simp [Schema.HasPlainReferences, Schema.references]

theorem exists_primitive_of_plainKind {kind : String} {s : Schema}
    (h : plainKind kind = .ok s) : ∃ type, s = .primitive type := by
  unfold plainKind at h
  split at h
  · cases h
  · split at h
    · cases h
      exact ⟨_, rfl⟩
    · cases h

/-- A schema that is read from an object is a container of a schema that is read from a member, or
it is a primitive type. -/
theorem readSchema_object_cases {s : Schema} (h : readSchema (.object members) = .ok s) :
    (∃ inner, ∃ m ∈ members, readSchema m.2 = .ok inner ∧ (s = .array inner ∨ s = .map inner)) ∨
      ∃ type, s = .primitive type := by
  rw [readSchema, Except.bind_eq_ok_iff] at h
  obtain ⟨kind, -, h⟩ := h
  split at h
  · obtain ⟨items?, hitems, h⟩ := Except.bind_eq_ok_iff.mp h
    cases items? with
    | none => cases h
    | some items =>
      cases h
      obtain ⟨m, hm, hs⟩ := exists_mem_of_readSchemaAt? hitems
      exact .inl ⟨items, m, hm, hs, .inl rfl⟩
  · split at h
    · obtain ⟨values?, hvalues, h⟩ := Except.bind_eq_ok_iff.mp h
      cases values? with
      | none => cases h
      | some values =>
        cases h
        obtain ⟨m, hm, hs⟩ := exists_mem_of_readSchemaAt? hvalues
        exact .inl ⟨values, m, hm, hs, .inr rfl⟩
    · exact .inr (exists_primitive_of_plainKind h)

/-- **A schema that is read refers to no primitive type by name**: by induction over the value,
as a word is taken for a primitive type wherever it names one. -/
theorem hasPlainReferences_of_readSchema {s : Schema} (h : readSchema v = .ok s) :
    s.HasPlainReferences := by
  induction v using Json.induction generalizing s with
  | null => cases h
  | bool b => cases h
  | number n => cases h
  | string word =>
    cases h
    exact Idl.hasPlainReferences_ofWord
  | array items ih =>
    rw [readSchema, readSchemas_eq_mapM, Except.bind_eq_ok_iff] at h
    obtain ⟨branches, hbranches, heq⟩ := h
    cases heq
    intro name hname
    rw [Schema.references, Schema.referencesOfAll_eq_flatMap, List.mem_flatMap] at hname
    obtain ⟨b, hb, hname⟩ := hname
    exact forall_mem_of_mapM hbranches (fun v hv b hb => ih v hv hb) b hb name hname
  | object members ih =>
    obtain ⟨inner, m, hm, hs, hcontainer⟩ | ⟨type, rfl⟩ := readSchema_object_cases h
    · have hplain := ih m hm hs
      rcases hcontainer with rfl | rfl <;> exact hplain
    · exact hasPlainReferences_primitive type

theorem mem_of_requiredItems {key : String} {items : List Json}
    (h : requiredItems members key part = .ok items) : (key, .array items) ∈ members := by
  unfold requiredItems at h
  split at h
  · cases h
  · rename_i items' hget
    cases h
    exact Members.mem_of_get? hget
  · cases h

/-! What is read comes from the members of an object. -/

theorem of_readField_eq_ok {f : Field} (h : readField v = .ok f) :
    ∃ members w, v = .object members ∧ ("type", w) ∈ members ∧ readSchema w = .ok f.schema ∧
      f.default? = Members.get? members "default" ∧
      f.properties = customProperties members fieldKeys := by
  unfold readField at h
  split at h
  · rename_i members
    obtain ⟨name, -, h⟩ := Except.bind_eq_ok_iff.mp h
    dsimp only at h
    split at h
    · cases h
    · rename_i w hget
      obtain ⟨schema, hschema, h⟩ := Except.bind_eq_ok_iff.mp h
      obtain ⟨doc, -, h⟩ := Except.bind_eq_ok_iff.mp h
      cases h
      exact ⟨members, w, rfl, Members.mem_of_get? hget, hschema, rfl, rfl⟩
  · cases h

theorem of_readBody_eq_ok {kind : String} {body : TypeBody}
    (h : readBody members kind part = .ok body) :
    (∃ isError items fields, body = .record isError fields ∧ ("fields", .array items) ∈ members ∧
      items.mapM readField = .ok fields) ∨
    (∃ items symbols, body = .symbols symbols ∧ ("symbols", .array items) ∈ members) ∨
    ∃ size, body = .fixed size := by
  unfold readBody at h
  split at h
  · obtain ⟨items, hitems, h⟩ := Except.bind_eq_ok_iff.mp h
    obtain ⟨fields, hfields, h⟩ := Except.bind_eq_ok_iff.mp h
    cases h
    exact .inl ⟨_, items, fields, rfl, mem_of_requiredItems hitems, hfields⟩
  · split at h
    · obtain ⟨items, hitems, h⟩ := Except.bind_eq_ok_iff.mp h
      obtain ⟨symbols, -, h⟩ := Except.bind_eq_ok_iff.mp h
      cases h
      exact .inr (.inl ⟨items, symbols, rfl, mem_of_requiredItems hitems⟩)
    · split at h
      · split at h
        · cases h
        · split at h
          · cases h
            exact .inr (.inr ⟨_, rfl⟩)
          · cases h
      · cases h

theorem of_readType_eq_ok {t : NamedType} (h : readType v = .ok t) :
    ∃ members kind part, v = .object members ∧ readBody members kind part = .ok t.body ∧
      t.properties = customProperties members typeKeys := by
  unfold readType at h
  split at h
  · rename_i members
    obtain ⟨kind, -, h⟩ := Except.bind_eq_ok_iff.mp h
    obtain ⟨name, -, h⟩ := Except.bind_eq_ok_iff.mp h
    obtain ⟨space, -, h⟩ := Except.bind_eq_ok_iff.mp h
    obtain ⟨doc, -, h⟩ := Except.bind_eq_ok_iff.mp h
    obtain ⟨body, hbody, h⟩ := Except.bind_eq_ok_iff.mp h
    cases h
    exact ⟨members, kind, _, rfl, hbody, rfl⟩
  · cases h

theorem of_readMessage_eq_ok {name : String} {m : Message} (h : readMessage name v = .ok m) :
    ∃ members items w, v = .object members ∧ ("request", .array items) ∈ members ∧
      items.mapM readField = .ok m.request ∧ ("response", w) ∈ members ∧
      readSchema w = .ok m.response ∧ m.properties = customProperties members messageKeys ∧
      m.name = name := by
  unfold readMessage at h
  dsimp only at h
  split at h
  · rename_i members
    obtain ⟨items, hitems, h⟩ := Except.bind_eq_ok_iff.mp h
    obtain ⟨request, hrequest, h⟩ := Except.bind_eq_ok_iff.mp h
    split at h
    · cases h
    · rename_i w hget
      obtain ⟨response, hresponse, h⟩ := Except.bind_eq_ok_iff.mp h
      obtain ⟨errors, -, h⟩ := Except.bind_eq_ok_iff.mp h
      obtain ⟨oneWay, -, h⟩ := Except.bind_eq_ok_iff.mp h
      obtain ⟨doc, -, h⟩ := Except.bind_eq_ok_iff.mp h
      cases h
      exact ⟨members, items, w, rfl, mem_of_requiredItems hitems, hrequest,
        Members.mem_of_get? hget, hresponse, rfl, rfl⟩
  · cases h

theorem of_readTypes_eq_ok {types : List NamedType} (h : readTypes members = .ok types) :
    types = [] ∨ ∃ items, ("types", .array items) ∈ members ∧ items.mapM readType = .ok types := by
  unfold readTypes at h
  split at h
  · cases h
    exact .inl rfl
  · rename_i items hget
    exact .inr ⟨items, Members.mem_of_get? hget, h⟩
  · cases h

theorem of_readMessages_eq_ok {messages : List Message} (h : readMessages members = .ok messages) :
    messages = [] ∨ ∃ entries, ("messages", .object entries) ∈ members ∧
      entries.mapM (fun (name, v) => readMessage name v) = .ok messages := by
  unfold readMessages at h
  split at h
  · cases h
    exact .inl rfl
  · rename_i entries hget
    exact .inr ⟨entries, Members.mem_of_get? hget, h⟩
  · cases h

/-- The messages that are read have the names of the entries, in order. -/
theorem map_name_of_mapM {entries : Members} {messages : List Message}
    (h : entries.mapM (fun (name, v) => readMessage name v) = .ok messages) :
    messages.map Message.name = Members.keys entries := by
  have hentries := mapM_eq_ok_iff.mp h
  clear h
  induction hentries with
  | nil => rfl
  | cons hm _ ih =>
    obtain ⟨-, -, -, -, -, -, -, -, -, hname⟩ := of_readMessage_eq_ok hm
    rw [List.map_cons, ih, hname]
    rfl

end Document

/-! ## Conditions on what is read -/

/-- Whatever is read from the parts of a value meets the conditions. -/
structure Conditions.HoldIn (c : Conditions) (v : Json) : Prop where
  properties : ∀ ms, .object ms ∈ v.parts → ∀ keys, c.properties (Document.customProperties ms keys)
  default : ∀ w ∈ v.parts, c.default w
  schema : ∀ w ∈ v.parts, ∀ s, Document.readSchema w = .ok s → c.schema s

section HoldIn

open Document

variable {c : Conditions} {members : Members} {part : DocumentPart} {v w : Json}

theorem Conditions.HoldIn.of_mem (hc : c.HoldIn v) (hw : w ∈ v.parts) : c.HoldIn w :=
  have hsub := Json.parts_subset_of_mem hw
  ⟨fun ms hms => hc.properties ms (hsub hms), fun u hu => hc.default u (hsub hu),
    fun u hu => hc.schema u (hsub hu)⟩

theorem Conditions.HoldIn.of_mem_items {items : List Json} (hc : c.HoldIn (.array items)) :
    ∀ w ∈ items, c.HoldIn w :=
  fun _ hw => hc.of_mem (Json.mem_parts_of_mem_items hw)

theorem Conditions.HoldIn.of_mem_members {key : String} (hc : c.HoldIn (.object members))
    (hw : (key, w) ∈ members) : c.HoldIn w :=
  hc.of_mem (Json.mem_parts_of_mem_members hw)

theorem Document.meets_of_readField {f : Field} (h : readField v = .ok f) (hc : c.HoldIn v) :
    f.Meets c := by
  obtain ⟨members, w, rfl, htype, hschema, hdefault, hproperties⟩ := of_readField_eq_ok h
  refine ⟨hproperties ▸ hc.properties _ (Json.self_mem_parts _) _, fun u hu => ?_, ?_⟩
  · exact hc.default u (Json.mem_parts_of_mem_members (Members.mem_of_get? (hdefault ▸ hu)))
  · exact hc.schema w (Json.mem_parts_of_mem_members htype) _ hschema

theorem Document.meets_of_readBody {kind : String} {body : TypeBody}
    (h : readBody members kind part = .ok body) (hc : c.HoldIn (.object members)) :
    body.Meets c := by
  obtain ⟨isError, items, fields, rfl, hitems, hfields⟩ | ⟨items, symbols, rfl, -⟩ | ⟨size, rfl⟩ :=
    of_readBody_eq_ok h
  · exact forall_mem_of_mapM hfields fun w hw _ hread =>
      meets_of_readField hread ((hc.of_mem_members hitems).of_mem_items w hw)
  · trivial
  · trivial

theorem Document.meets_of_readType {t : NamedType} (h : readType v = .ok t) (hc : c.HoldIn v) :
    t.Meets c := by
  obtain ⟨members, kind, part, rfl, hbody, hproperties⟩ := of_readType_eq_ok h
  exact ⟨hproperties ▸ hc.properties _ (Json.self_mem_parts _) _, meets_of_readBody hbody hc⟩

theorem Document.meets_of_readMessage {name : String} {m : Message}
    (h : readMessage name v = .ok m) (hc : c.HoldIn v) : m.Meets c := by
  obtain ⟨members, items, w, rfl, hitems, hrequest, hresponse, hschema, hproperties, -⟩ :=
    of_readMessage_eq_ok h
  refine ⟨hproperties ▸ hc.properties _ (Json.self_mem_parts _) _, ?_, ?_⟩
  · exact forall_mem_of_mapM hrequest fun w hw _ hread =>
      meets_of_readField hread ((hc.of_mem_members hitems).of_mem_items w hw)
  · exact hc.schema w (Json.mem_parts_of_mem_members hresponse) _ hschema

end HoldIn

namespace Protocol

open Document

variable {p : Protocol} {v : Json}

/-- A protocol is read from the attributes of an object, and its lookup is made by adding the
types. -/
theorem of_ofJson_eq_ok (h : ofJson v = .ok p) : ∃ members, v = .object members ∧
    readTypes members = .ok p.types ∧ readMessages members = .ok p.messages ∧
    p.properties = customProperties members protocolKeys ∧ p.IsIndexed := by
  unfold ofJson at h
  split at h
  · rename_i members
    obtain ⟨name, -, h⟩ := Except.bind_eq_ok_iff.mp h
    obtain ⟨space, -, h⟩ := Except.bind_eq_ok_iff.mp h
    obtain ⟨doc, -, h⟩ := Except.bind_eq_ok_iff.mp h
    obtain ⟨types, htypes, h⟩ := Except.bind_eq_ok_iff.mp h
    obtain ⟨messages, hmessages, h⟩ := Except.bind_eq_ok_iff.mp h
    dsimp only at h
    rw [← addTypes, addTypes_eq] at h
    cases h
    refine ⟨members, rfl, htypes, hmessages, rfl, ?_⟩
    rw [IsIndexed, lookup_addTypes, lookup_addTypes]
    rfl
  · cases h

/-- **What is read from a document meets every condition that holds in the document.** -/
theorem meets_of_ofJson {c : Conditions} (h : ofJson v = .ok p) (hc : c.HoldIn v) : p.Meets c := by
  obtain ⟨members, rfl, htypes, hmessages, hproperties, -⟩ := of_ofJson_eq_ok h
  refine ⟨hproperties ▸ hc.properties _ (Json.self_mem_parts _) _, ?_, ?_⟩
  · obtain hnil | ⟨items, hitems, hread⟩ := of_readTypes_eq_ok htypes
    · simp [hnil]
    · exact forall_mem_of_mapM hread fun w hw _ ht =>
        meets_of_readType ht ((hc.of_mem_members hitems).of_mem_items w hw)
  · obtain hnil | ⟨entries, hentries, hread⟩ := of_readMessages_eq_ok hmessages
    · simp [hnil]
    · exact forall_mem_of_mapM hread fun entry hentry _ hm =>
        meets_of_readMessage hm ((hc.of_mem_members hentries).of_mem_members hentry)

theorem meets_plain_of_ofJson (h : ofJson v = .ok p) : p.Meets .plain :=
  meets_of_ofJson h
    ⟨fun _ _ _ => trivial, fun _ _ => trivial, fun _ _ _ => hasPlainReferences_of_readSchema⟩

theorem isIndexed_of_ofJson (h : ofJson v = .ok p) : p.IsIndexed := by
  obtain ⟨members, -, -, -, -, hindexed⟩ := of_ofJson_eq_ok h
  exact hindexed

theorem get?_messages_toJson : ∃ members, p.toJson = .object members ∧
    Members.get? members "messages" = some (.object (Canonical.ofMessages p.messages)) := by
  have hget : Members.get? (Canonical.custom p.properties) "messages" = none :=
    Canonical.get?_eq_none_of_areCustom Canonical.areCustom_custom (by decide)
  refine ⟨_, rfl, ?_⟩
  simp only [Members.get?_append, Canonical.get?_text?, hget]
  simp [Members.get?]

/-- Messages that are read from the document of a protocol differ in their names, as the
document holds one entry for each name. -/
theorem nodup_messages_of_ofJson_toJson {q : Protocol} (h : ofJson p.toJson = .ok q) :
    (q.messages.map Message.name).Nodup := by
  obtain ⟨members, hmembers, -, hmessages, -, -⟩ := of_ofJson_eq_ok h
  obtain ⟨_, hsame, hget⟩ := get?_messages_toJson (p := p)
  obtain rfl := Json.object.inj (hmembers.symm.trans hsame)
  rw [readMessages, hget] at hmessages
  rw [map_name_of_mapM hmessages]
  exact Members.nodup_keys_insertAll (by simp [Members.keys])

/-! ## What is read back -/

/-- **A protocol is read back from its document exactly if the document can express it.** -/
theorem ofJson_toJson_iff : ofJson p.toJson = .ok p ↔ p.IsExpressible := by
  refine ⟨fun h => ?_, ofJson_toJson⟩
  have hplain := meets_plain_of_ofJson h
  have hnodup := nodup_messages_of_ofJson_toJson h
  have hindexed := isIndexed_of_ofJson h
  have hshown : p.shown = p := by
    rw [ofJson_toJson_eq_shown hplain hnodup hindexed] at h
    exact Except.ok.inj h
  exact ⟨hshown ▸ hplain.shown Conditions.plain_shownAs_expressible, hnodup, hindexed⟩

/-- **The document of a protocol is a faithful encoding**: exactly the protocols that it can
express are read back, and an interface definition gives no others. -/
theorem ofJson_toJson_iff_and_isExpressible_of_ofIdl :
    (∀ p : Protocol, ofJson p.toJson = .ok p ↔ p.IsExpressible) ∧
      ∀ (text : String) (p : Protocol), ofIdl text = .ok p → p.IsExpressible :=
  ⟨fun _ => ofJson_toJson_iff, fun _ _ => isExpressible_of_ofIdl⟩

/-- An interface definition with types of every kind, a default that is null, properties at
several places, and messages with and without an answer. -/
def mailText : String := String.ofList (
  "@namespace(\"org.mail\") @version([1, 2]) protocol Mail \x7b ".toList ++
  "enum Kind \x7b PLAIN, RICH \x7d error Fault \x7b string reason; \x7d ".toList ++
  "@namespace(\"org.base\") fixed Digest(16); record Note \x7b ".toList ++
  "@order(1) union \x7b null, array<string> \x7d tags = null; Kind kind = \"PLAIN\"; ".toList ++
  "map<org.base.Digest> sums; \x7d Note send(Note note, int times = 1) throws Fault; ".toList ++
  "@retry(\x7b\"max\": 3\x7d) void ping() oneway; \x7d".toList)

/-- What is read from `mailText` has parts of every kind and is read back from its document. -/
theorem mailText_isReadBack : ∃ p, ofIdl mailText = .ok p ∧
    p.types.map NamedType.kindName = ["enum", "error", "fixed", "record"] ∧
    p.messages.map Message.oneWay = [false, true] ∧ p.properties ≠ [] ∧
    p.IsExpressible ∧ ofJson p.toJson = .ok p := by
  have hread : ∃ p, ofIdl mailText = .ok p ∧
      p.types.map NamedType.kindName = ["enum", "error", "fixed", "record"] ∧
      p.messages.map Message.oneWay = [false, true] ∧ ¬ p.properties.isEmpty :=
    exists_of_characters (by decide +kernel)
  obtain ⟨p, hp, htypes, hmessages, hproperties⟩ := hread
  have hexpressible := ofJson_toJson_iff_and_isExpressible_of_ofIdl.2 mailText p hp
  exact ⟨p, hp, htypes, hmessages, by simpa using hproperties, hexpressible,
    (ofJson_toJson_iff_and_isExpressible_of_ofIdl.1 p).mpr hexpressible⟩

/-- **Of a valid protocol that was read from a document, its own document loses the properties
that have no meaning at their place but one elsewhere, and nothing else.**  If there is such a
property, what is read back is not the same protocol. -/
theorem ofJson_toJson_of_ofJson (hread : ofJson v = .ok p) (hvalid : p.validate = .ok ()) :
    ofJson p.toJson = .ok p.shown ∧ (p.Meets .custom → p.shown = p) ∧
      (¬ p.Meets .custom → ¬ p.shown.same p) :=
  ⟨ofJson_toJson_eq_shown (meets_plain_of_ofJson hread)
      (validate_eq_ok_iff.mp hvalid).nodup_messages (isIndexed_of_ofJson hread),
    shown_eq_self, mt meets_custom_of_same⟩

/-- A field with a property that only types have a meaning for. -/
def sizedField : Field where
  name := "x"
  schema := .primitive .int
  properties := [("size", .number (.natural 4))]

/-- A protocol with this field in its only type. -/
def sizedProtocol : Protocol :=
  (Protocol.empty "P" none).addType { name := "R", body := .record false [sizedField] }

/-- A document of this protocol. -/
def sizedDocument : Json := .object [
  ("protocol", .string "P"),
  ("types", .array [.object [
    ("type", .string "record"), ("name", .string "R"),
    ("fields", .array [.object [
      ("name", .string "x"), ("type", .string "int"), ("size", .number (.natural 4))]])]]),
  ("messages", .object [])]

/-- The size of the field is read, and lost when the protocol is written and read again. -/
theorem sizedDocument_loses_size : ofJson sizedDocument = .ok sizedProtocol ∧
    sizedProtocol.validate = .ok () ∧ ofJson sizedProtocol.toJson = .ok sizedProtocol.shown ∧
    ¬ sizedProtocol.shown.same sizedProtocol := by
  have hread : ofJson sizedDocument = .ok sizedProtocol := by rfl
  have hvalid : sizedProtocol.validate = .ok () := by rfl
  have hlost := ofJson_toJson_of_ofJson hread hvalid
  refine ⟨hread, hvalid, hlost.1, hlost.2.2 fun h => ?_⟩
  have hbody : (TypeBody.record false [sizedField]).Meets .custom :=
    (h.types _ (List.mem_singleton_self _)).body
  have hfield : sizedField.Meets .custom := hbody sizedField (List.mem_singleton_self _)
  exact hfield.properties _ (List.mem_singleton_self _) (by decide)

end Protocol

end IdlCompiler
