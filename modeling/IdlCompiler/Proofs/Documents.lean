/-
# Reading back the document of a protocol

The canonical document of a protocol is read as the protocol again, `Protocol.ofJson_toJson`,
if the document can express it, `Protocol.IsExpressible`: messages differ in their names, the
lookup is the one of the types, no custom property has a key with a meaning of its own, and
no reference to a named type has the name of a primitive one.  Each part of a document has
its own lemma of this kind.  All attributes of a part are found in the same way: custom
properties hide no attribute, and no attribute is taken for a custom property.
-/
import IdlCompiler.Protocol.Document
import IdlCompiler.Proofs.JsonParts
import IdlCompiler.Proofs.Resolution

namespace IdlCompiler

open Json (Members)

/-! ## What a document can express -/

/-- None of the keys has a meaning of its own. -/
def Properties.AreCustom (properties : Properties) : Prop :=
  ∀ m ∈ properties, ¬ isReservedKey m.1

/-- No reference has the name of a primitive type. -/
def Schema.HasPlainReferences (s : Schema) : Prop :=
  ∀ name ∈ s.references, Primitive.ofName? name = none

/-- Conditions on the properties, the defaults and the schemas that a protocol is made of. -/
structure Conditions where
  properties : Properties → Prop
  default : Json → Prop
  schema : Schema → Prop

/-- A field whose parts meet the conditions. -/
structure Field.Meets (c : Conditions) (f : Field) : Prop where
  properties : c.properties f.properties
  default : ∀ v ∈ f.default?, c.default v
  schema : c.schema f.schema

/-- The body of a named type whose parts meet the conditions. -/
def TypeBody.Meets (c : Conditions) : TypeBody → Prop
  | record _ fields => ∀ f ∈ fields, f.Meets c
  | symbols _ => True
  | fixed _ => True

/-- A named type whose parts meet the conditions. -/
structure NamedType.Meets (c : Conditions) (t : NamedType) : Prop where
  properties : c.properties t.properties
  body : t.body.Meets c

/-- A message whose parts meet the conditions. -/
structure Message.Meets (c : Conditions) (m : Message) : Prop where
  properties : c.properties m.properties
  request : ∀ f ∈ m.request, f.Meets c
  response : c.schema m.response

/-- A protocol whose parts meet the conditions. -/
structure Protocol.Meets (c : Conditions) (p : Protocol) : Prop where
  properties : c.properties p.properties
  types : ∀ t ∈ p.types, t.Meets c
  messages : ∀ m ∈ p.messages, m.Meets c

/-- A document shows a part as it is: its properties are custom and its references plain. -/
abbrev Conditions.expressible : Conditions :=
  ⟨Properties.AreCustom, fun _ => True, Schema.HasPlainReferences⟩

/-- A protocol that a document can express. -/
structure Protocol.IsExpressible (p : Protocol) : Prop where
  meets : p.Meets .expressible
  nodup_messages : (p.messages.map Message.name).Nodup
  isIndexed : p.IsIndexed

/-! ## Attributes and custom properties -/

theorem Json.Members.get?_append (ms ns : Members) (key : String) :
    Members.get? (ms ++ ns) key = (Members.get? ms key).or (Members.get? ns key) := by
  induction ms with
  | nil => simp
  | cons m ms ih =>
    obtain ⟨k, v⟩ := m
    by_cases hk : k = key
    · simp [Members.get?, hk]
    · simpa [Members.get?, hk] using ih

namespace Canonical

open Document

variable {properties : Properties} {key other : String} {value : Option String}
  {keys : List String} {members : Members}

theorem get?_text? : Members.get? (text? key value) other =
    if key = other then value.map Json.string else none := by
  cases value with
  | none => simp [text?]
  | some s => simp [text?, Members.get?]

theorem custom_eq (h : Properties.AreCustom properties) : custom properties = properties := by
  refine List.filter_eq_self.mpr fun m hm => ?_
  simpa using h m hm

/-- Custom properties hide no attribute. -/
theorem get?_eq_none_of_areCustom (h : Properties.AreCustom properties)
    (hkey : isReservedKey key) : Members.get? properties key = none := by
  induction properties with
  | nil => rfl
  | cons m rest ih =>
    obtain ⟨k, v⟩ := m
    rw [Properties.AreCustom, List.forall_mem_cons] at h
    have hk : k ≠ key := by
      rintro rfl
      exact h.1 hkey
    rw [Members.get?, if_neg hk]
    exact ih h.2

@[simp] theorem customProperties_append (ms ns : Members) :
    customProperties (ms ++ ns) keys = customProperties ms keys ++ customProperties ns keys :=
  List.filter_append ..

/-- No attribute is taken for a custom property. -/
theorem customProperties_eq_nil (h : ∀ m ∈ members, m.1 ∈ keys) :
    customProperties members keys = [] := by
  refine List.filter_eq_nil_iff.mpr fun m hm => ?_
  simpa using h m hm

theorem customProperties_text? (h : key ∈ keys) : customProperties (text? key value) keys = [] := by
  refine customProperties_eq_nil fun m hm => ?_
  cases value with
  | none => simp [text?] at hm
  | some s =>
    obtain rfl : m = (key, .string s) := by simpa [text?] using hm
    exact h

theorem customProperties_eq_self (h : Properties.AreCustom properties)
    (hkeys : ∀ key ∈ keys, isReservedKey key) : customProperties properties keys = properties := by
  refine List.filter_eq_self.mpr fun m hm => ?_
  have hnot : m.1 ∉ keys := fun hmem => h m hm (hkeys _ hmem)
  simpa using hnot

theorem requiredText_eq {part : DocumentPart} {s : String}
    (h : Members.get? members key = some (.string s)) : requiredText members key part = .ok s := by
  rw [requiredText, h]

theorem optionalText_eq {part : DocumentPart}
    (h : Members.get? members key = value.map Json.string) :
    optionalText members key part = .ok value := by
  rw [optionalText, h]
  cases value <;> rfl

theorem requiredItems_eq {part : DocumentPart} {items : List Json}
    (h : Members.get? members key = some (.array items)) :
    requiredItems members key part = .ok items := by
  rw [requiredItems, h]

theorem readTexts_texts {part : DocumentPart} {values : List String} :
    readTexts key part (values.map Json.string) = .ok values :=
  mapM_map_eq fun _ _ => rfl

/-! ## Schemas -/

mutual

theorem readSchema_toJson : (s : Schema) → s.HasPlainReferences → readSchema s.toJson = .ok s
  | .primitive p, _ => by rw [Schema.toJson, readSchema, Schema.ofWord_name]
  | .named name, h => by
    have hname : Primitive.ofName? name = none := h name (by simp [Schema.references])
    rw [Schema.toJson, readSchema, Schema.ofWord, hname]
  | .array items, h => by
    have hitems := readSchema_toJson items h
    simp [Schema.toJson, readSchema, requiredText, Members.get?, readSchemaAt?, hitems, bind,
      Except.bind, pure, Except.pure, Functor.map, Except.map]
  | .map values, h => by
    have hvalues := readSchema_toJson values h
    simp [Schema.toJson, readSchema, requiredText, Members.get?, readSchemaAt?, hvalues, bind,
      Except.bind, pure, Except.pure, Functor.map, Except.map]
  | .union branches, h => by
    have hbranches := readSchemas_toJsonAll branches h
    simp [Schema.toJson, readSchema, hbranches, bind, Except.bind, pure, Except.pure]

theorem readSchemas_toJsonAll : (ss : List Schema) →
    (∀ name ∈ Schema.referencesOfAll ss, Primitive.ofName? name = none) →
    readSchemas (Schema.toJsonAll ss) = .ok ss
  | [], _ => rfl
  | s :: ss, h => by
    rw [Schema.referencesOfAll, List.forall_mem_append] at h
    rw [Schema.toJsonAll, readSchemas, readSchema_toJson s h.1, readSchemas_toJsonAll ss h.2]
    rfl

end

/-! ## Fields and types -/

/-- A field is read from its attributes. -/
theorem readField_object {f : Field} (hname : Members.get? members "name" = some (.string f.name))
    (htype : Members.get? members "type" = some f.schema.toJson)
    (hschema : f.schema.HasPlainReferences)
    (hdoc : Members.get? members "doc" = f.doc.map Json.string)
    (hdefault : Members.get? members "default" = f.default?)
    (hcustom : customProperties members fieldKeys = f.properties) :
    readField (.object members) = .ok f := by
  simp only [readField, requiredText_eq hname, bind, Except.bind, htype,
    readSchema_toJson f.schema hschema, optionalText_eq hdoc, hdefault, hcustom]
  rfl

theorem readField_ofField {f : Field} (h : f.Meets .expressible) :
    readField (ofField f) = .ok f := by
  have hget := fun key (hkey : isReservedKey key) => get?_eq_none_of_areCustom h.properties hkey
  rw [ofField, custom_eq h.properties]
  refine readField_object rfl rfl h.schema ?_ ?_ ?_
  · simp only [Members.get?_append, get?_text?, hget "doc" (by decide)]
    cases f.default? <;> simp [Members.get?]
  · simp only [Members.get?_append, get?_text?, hget "default" (by decide)]
    cases f.default? <;> simp [Members.get?]
  · rw [customProperties_append, customProperties_append, customProperties_append,
      customProperties_text? (by decide), customProperties_eq_self h.properties (by decide)]
    cases f.default? <;> rfl

theorem readBody_ofBody {t : NamedType} {part : DocumentPart} (h : t.body.Meets .expressible)
    (hbody : Members.get? members (ofBody t.body).1 = some (ofBody t.body).2) :
    readBody members t.kindName part = .ok t.body := by
  obtain ⟨head, body⟩ := t
  cases body with
  | record isError fields =>
    have hfields : (fields.map ofField).mapM readField = .ok fields :=
      mapM_map_eq fun f hf => readField_ofField (h f hf)
    have hitems : requiredItems members "fields" part = .ok (fields.map ofField) :=
      requiredItems_eq hbody
    cases isError <;>
      simp [readBody, NamedType.kindName, hitems, hfields, bind, Except.bind, pure, Except.pure]
  | symbols symbols =>
    have hitems : requiredItems members "symbols" part = .ok (symbols.map Json.string) :=
      requiredItems_eq hbody
    simp [readBody, NamedType.kindName, hitems, readTexts_texts, bind, Except.bind, pure,
      Except.pure]
  | fixed size =>
    have hsize : Members.get? members "size" = some (.number (.natural size)) := hbody
    simp [readBody, NamedType.kindName, hsize, Json.toUInt64?, Json.Number.toUInt64?, pure,
      Except.pure]

/-- A named type is read from its attributes. -/
theorem readType_object {t : NamedType}
    (hkind : Members.get? members "type" = some (.string t.kindName))
    (hname : Members.get? members "name" = some (.string t.name))
    (hspace : Members.get? members "namespace" = t.space.map Json.string)
    (hdoc : Members.get? members "doc" = t.doc.map Json.string)
    (hbody : Members.get? members (ofBody t.body).1 = some (ofBody t.body).2)
    (hexpressible : t.body.Meets .expressible)
    (hcustom : customProperties members typeKeys = t.properties) :
    readType (.object members) = .ok t := by
  simp only [readType, requiredText_eq hkind, requiredText_eq hname, optionalText_eq hspace,
    optionalText_eq hdoc, readBody_ofBody hexpressible hbody, hcustom, bind, Except.bind]
  rfl

/-- The key of a body is none of the attributes that all named types have. -/
theorem get?_ofBody (key : String) {body : TypeBody}
    (h : key ∈ ["type", "name", "namespace", "doc"]) :
    Members.get? [ofBody body] key = none := by
  simp only [List.mem_cons, List.not_mem_nil, or_false] at h
  rcases h with rfl | rfl | rfl | rfl <;> cases body <;> rfl

theorem readType_ofType {t : NamedType} (h : t.Meets .expressible) :
    readType (ofType t) = .ok t := by
  have hget := fun key (hkey : isReservedKey key) => get?_eq_none_of_areCustom h.properties hkey
  rw [ofType, custom_eq h.properties]
  refine readType_object rfl rfl ?_ ?_ ?_ h.body ?_
  · simp only [Members.get?_append, get?_text?, hget "namespace" (by decide),
      get?_ofBody "namespace" (by decide)]
    simp [Members.get?]
  · simp only [Members.get?_append, get?_text?, hget "doc" (by decide),
      get?_ofBody "doc" (by decide)]
    simp [Members.get?]
  · simp only [Members.get?_append, get?_text?]
    cases t.body with
    | record isError fields => simp [Members.get?, ofBody, hget "fields" (by decide)]
    | symbols symbols => simp [Members.get?, ofBody, hget "symbols" (by decide)]
    | fixed size => simp [Members.get?, ofBody, hget "size" (by decide)]
  · rw [customProperties_append, customProperties_append, customProperties_append,
      customProperties_append, customProperties_text? (by decide),
      customProperties_text? (by decide), customProperties_eq_self h.properties (by decide)]
    cases t.body <;> simp [customProperties, ofBody, typeKeys]

/-! ## Messages -/

/-- A message is read from its attributes. -/
theorem readMessage_object {m : Message} (hrequest : ∀ f ∈ m.request, f.Meets .expressible)
    (hresponse : m.response.HasPlainReferences)
    (hitems : Members.get? members "request" = some (.array (m.request.map ofField)))
    (hanswer : Members.get? members "response" = some m.response.toJson)
    (herrors : ∀ part, readErrors members part = .ok m.errors)
    (honeWay : ∀ part, readOneWay members part = .ok m.oneWay)
    (hdoc : Members.get? members "doc" = m.doc.map Json.string)
    (hcustom : customProperties members messageKeys = m.properties) :
    readMessage m.name (.object members) = .ok m := by
  have hread : (m.request.map ofField).mapM readField = .ok m.request :=
    mapM_map_eq fun f hf => readField_ofField (hrequest f hf)
  simp only [readMessage, requiredItems_eq hitems, hread, hanswer,
    readSchema_toJson m.response hresponse, herrors, honeWay, optionalText_eq hdoc, hcustom, bind,
    Except.bind]
  rfl

theorem readErrors_eq {part : DocumentPart} {errors : List String}
    (h : Members.get? members "errors" = if errors.isEmpty then none else some (texts errors)) :
    readErrors members part = .ok errors := by
  rw [readErrors, h]
  cases errors with
  | nil => rfl
  | cons e errors => exact readTexts_texts

theorem readOneWay_eq {part : DocumentPart} {oneWay : Bool}
    (h : Members.get? members "one-way" = if oneWay then some (.bool true) else none) :
    readOneWay members part = .ok oneWay := by
  rw [readOneWay, h]
  cases oneWay <;> rfl

theorem readMessage_ofMessage {m : Message} (h : m.Meets .expressible) :
    readMessage m.name (ofMessage m) = .ok m := by
  have hget := fun key (hkey : isReservedKey key) => get?_eq_none_of_areCustom h.properties hkey
  rw [ofMessage, custom_eq h.properties]
  refine readMessage_object h.request h.response ?_ ?_ (fun part => readErrors_eq ?_)
    (fun part => readOneWay_eq ?_) ?_ ?_
  -- errors and the mark for one way are only written where there is something to say
  · simp only [Members.get?_append, get?_text?, hget "request" (by decide)]
    simp [Members.get?]
  · simp only [Members.get?_append, get?_text?, hget "response" (by decide)]
    simp [Members.get?]
  · simp only [Members.get?_append, get?_text?, hget "errors" (by decide)]
    cases m.errors.isEmpty <;> cases m.oneWay <;> simp [Members.get?]
  · simp only [Members.get?_append, get?_text?, hget "one-way" (by decide)]
    cases m.errors.isEmpty <;> cases m.oneWay <;> simp [Members.get?]
  · simp only [Members.get?_append, get?_text?, hget "doc" (by decide)]
    cases m.errors.isEmpty <;> cases m.oneWay <;> simp [Members.get?]
  · rw [customProperties_append, customProperties_append, customProperties_append,
      customProperties_append, customProperties_text? (by decide),
      customProperties_eq_self h.properties (by decide)]
    cases m.errors.isEmpty <;> cases m.oneWay <;> simp [customProperties, messageKeys]

/-- Messages that differ in their names are all in the document, in order. -/
theorem ofMessages_eq {messages : List Message} (h : (messages.map Message.name).Nodup) :
    ofMessages messages = messages.map fun m => (m.name, ofMessage m) := by
  refine Members.insertAll_of_nodup ?_
  rw [List.nil_append, Members.keys, List.map_map]
  exact h

/-- The entries of a document's messages are read as the messages. -/
theorem mapM_readMessage {messages : List Message} (h : ∀ m ∈ messages, m.Meets .expressible) :
    (messages.map fun m => (m.name, ofMessage m)).mapM
      (fun (name, v) => readMessage name v) = .ok messages :=
  mapM_map_eq fun m hm => readMessage_ofMessage (h m hm)

end Canonical

/-! ## Protocols -/

namespace Protocol

open Canonical Document

/-- Adding types changes the types and the lookup only. -/
theorem addTypes_eq {p : Protocol} {types : List NamedType} :
    p.addTypes types = { p with
      types := p.types ++ types
      lookup := (p.addTypes types).lookup } := by
  induction types generalizing p with
  | nil => simp [addTypes]
  | cons t types ih =>
    have h : p.addTypes (t :: types) = (p.addType t).addTypes types := rfl
    rw [h, ih]
    simp [addType]

/-- A protocol is read from its attributes. -/
theorem ofJson_object {p : Protocol} {members : Members} (hindexed : p.IsIndexed)
    (hname : Members.get? members "protocol" = some (.string p.name))
    (hspace : Members.get? members "namespace" = p.space.map Json.string)
    (hdoc : Members.get? members "doc" = p.doc.map Json.string)
    (htypes : readTypes members = .ok p.types) (hmessages : readMessages members = .ok p.messages)
    (hcustom : customProperties members protocolKeys = p.properties) :
    ofJson (.object members) = .ok p := by
  -- Adding the types to the head makes the lookup of the protocol again.
  let head : Protocol := { p with types := [], messages := [], lookup := [] }
  have hlookup : (head.addTypes p.types).lookup = p.lookup := by
    rw [isIndexed_iff.mp hindexed, lookup_addTypes]
    rfl
  have hadd : head.addTypes p.types = { p with messages := [] } := by
    rw [addTypes_eq, hlookup]
    rfl
  have hprotocol : { p.types.foldl addType head with messages := p.messages } = p := by
    rw [← addTypes, hadd]
  simp only [ofJson, requiredText_eq hname, optionalText_eq hspace, optionalText_eq hdoc, htypes,
    hmessages, hcustom, bind, Except.bind]
  exact congrArg Except.ok hprotocol

/-- **A protocol that a document can express is read back from its document.** -/
theorem ofJson_toJson {p : Protocol} (h : p.IsExpressible) : ofJson p.toJson = .ok p := by
  have hget := fun key (hkey : isReservedKey key) =>
    get?_eq_none_of_areCustom h.meets.properties hkey
  rw [toJson, custom_eq h.meets.properties]
  refine ofJson_object h.isIndexed rfl ?_ ?_ ?_ ?_ ?_
  · simp only [Members.get?_append, get?_text?, hget "namespace" (by decide)]
    simp [Members.get?]
  · simp only [Members.get?_append, get?_text?, hget "doc" (by decide)]
    simp [Members.get?]
  · rw [readTypes]
    simp only [Members.get?_append, get?_text?, hget "types" (by decide)]
    simpa [Members.get?] using mapM_map_eq fun t ht => readType_ofType (h.meets.types t ht)
  · rw [readMessages]
    simp only [Members.get?_append, get?_text?, hget "messages" (by decide)]
    simpa [Members.get?, ofMessages_eq h.nodup_messages] using mapM_readMessage h.meets.messages
  · rw [customProperties_append, customProperties_append, customProperties_append,
      customProperties_append, customProperties_text? (by decide),
      customProperties_text? (by decide), customProperties_eq_self h.meets.properties (by decide)]
    simp [customProperties, protocolKeys]

end Protocol

end IdlCompiler
