/-
# Reading back the canonical text of a protocol

The document of a protocol has distinct keys if the custom properties and the defaults have
them, `Protocol.hasDistinctKeys_toJson`.  So its text is read as the document if the document
nests no deeper than the reader of texts allows, and is rejected for its depth if it does.
With `Protocol.ofJson_toJson` this tells what becomes of the canonical text of any valid
protocol that a document can express, `Protocol.ofText_canonicalText` and
`Protocol.ofText_canonicalText_of_lt`.
-/
import IdlCompiler.Idl.Declaration
import IdlCompiler.Proofs.Documents
import IdlCompiler.Proofs.PrettyText

namespace IdlCompiler

open Json (Members)

/-- Objects have distinct keys, and those of custom properties have no meaning of their own. -/
abbrev Conditions.distinct : Conditions where
  properties ps := Properties.AreCustom ps ∧ (Json.object ps).HasDistinctKeys
  default := Json.HasDistinctKeys
  schema _ := True

namespace Canonical

variable {properties before after : Properties}

/-! ## Distinct keys -/

/-- Custom properties among attributes with distinct keys leave the keys distinct. -/
theorem hasDistinctKeys_around (hproperties : Conditions.distinct.properties properties)
    (hattributes : (Json.object (before ++ after)).HasDistinctKeys)
    (hreserved : ∀ key ∈ Members.keys (before ++ after), isReservedKey key) :
    (Json.object (before ++ properties ++ after)).HasDistinctKeys := by
  obtain ⟨hcustom, hdistinct⟩ := hproperties
  rw [Json.hasDistinctKeys_object] at hdistinct hattributes ⊢
  obtain ⟨hnodup, hvalues⟩ := hattributes
  simp only [Members.keys, List.map_append] at hdistinct hnodup hreserved ⊢
  refine ⟨?_, fun m hm => ?_⟩
  · -- The properties may as well stand behind all attributes.
    have hperm : (before.map Prod.fst ++ properties.map Prod.fst ++ after.map Prod.fst).Perm
        (before.map Prod.fst ++ after.map Prod.fst ++ properties.map Prod.fst) := by
      rw [List.append_assoc, List.append_assoc]
      exact List.Perm.append_left _ List.perm_append_comm
    rw [hperm.nodup_iff, List.nodup_append]
    refine ⟨hnodup, hdistinct.1, fun key hkey other hother heq => ?_⟩
    obtain ⟨m, hm, rfl⟩ := List.mem_map.mp hother
    exact hcustom m hm (heq ▸ hreserved key hkey)
  · rcases List.mem_append.mp hm with hm | hm
    · rcases List.mem_append.mp hm with hm | hm
      · exact hvalues m (List.mem_append_left _ hm)
      · exact hdistinct.2 m hm
    · exact hvalues m (List.mem_append_right _ hm)

mutual

theorem hasDistinctKeys_schema : (s : Schema) → s.toJson.HasDistinctKeys
  | .primitive _ => by simp [Schema.toJson]
  | .named _ => by simp [Schema.toJson]
  | .array items => by simp [Schema.toJson, Members.keys, hasDistinctKeys_schema items]
  | .map values => by simp [Schema.toJson, Members.keys, hasDistinctKeys_schema values]
  | .union branches => by
    rw [Schema.toJson, Json.hasDistinctKeys_array]
    exact hasDistinctKeys_schemas branches

theorem hasDistinctKeys_schemas :
    (ss : List Schema) → ∀ v ∈ Schema.toJsonAll ss, v.HasDistinctKeys
  | [] => by simp [Schema.toJsonAll]
  | s :: ss => by
    rw [Schema.toJsonAll, List.forall_mem_cons]
    exact ⟨hasDistinctKeys_schema s, hasDistinctKeys_schemas ss⟩

end

theorem hasDistinctKeys_texts (values : List String) : (texts values).HasDistinctKeys := by
  simp [texts]

theorem hasDistinctKeys_ofField {f : Field} (h : f.Meets .distinct) :
    (ofField f).HasDistinctKeys := by
  have hdefault := h.default
  have hschema := hasDistinctKeys_schema f.schema
  rw [ofField, custom_eq h.properties.1, ← List.append_nil (_ ++ f.properties)]
  refine hasDistinctKeys_around h.properties ?_ ?_
  · cases f.doc <;> cases hvalue : f.default? <;>
      simp_all [text?, Members.keys, Json.hasDistinctKeys_object]
  · cases f.doc <;> cases f.default? <;> simp [text?, Members.keys] <;> decide

theorem hasDistinctKeys_fields {fields : List Field} (h : ∀ f ∈ fields, f.Meets .distinct) :
    (Json.array (fields.map ofField)).HasDistinctKeys := by
  rw [Json.hasDistinctKeys_array]
  intro v hv
  obtain ⟨f, hf, rfl⟩ := List.mem_map.mp hv
  exact hasDistinctKeys_ofField (h f hf)

theorem hasDistinctKeys_ofBody {body : TypeBody} (h : body.Meets .distinct) :
    (ofBody body).2.HasDistinctKeys := by
  cases body with
  | record isError fields => exact hasDistinctKeys_fields h
  | symbols symbols => exact hasDistinctKeys_texts symbols
  | fixed size => simp [ofBody]

theorem ofBody_key (body : TypeBody) : (ofBody body).1 ∈ ["fields", "symbols", "size"] := by
  cases body <;> simp [ofBody]

theorem hasDistinctKeys_ofType {t : NamedType} (h : t.Meets .distinct) :
    (ofType t).HasDistinctKeys := by
  have hbody := hasDistinctKeys_ofBody h.body
  have hkey := ofBody_key t.body
  rw [ofType, custom_eq h.properties.1]
  generalize ofBody t.body = body at hbody hkey
  obtain ⟨key, value⟩ := body
  simp only [List.mem_cons, List.not_mem_nil, or_false] at hkey
  refine hasDistinctKeys_around h.properties ?_ ?_
  · rcases hkey with rfl | rfl | rfl <;> cases t.space <;> cases t.doc <;>
      simp_all [text?, Members.keys]
  · rcases hkey with rfl | rfl | rfl <;> cases t.space <;> cases t.doc <;>
      simp [text?, Members.keys] <;> decide

theorem hasDistinctKeys_ofMessage {m : Message} (h : m.Meets .distinct) :
    (ofMessage m).HasDistinctKeys := by
  have hrequest := hasDistinctKeys_fields h.request
  have hresponse := hasDistinctKeys_schema m.response
  have herrors := hasDistinctKeys_texts m.errors
  rw [ofMessage, custom_eq h.properties.1, List.append_assoc, List.append_assoc]
  refine hasDistinctKeys_around h.properties ?_ ?_
  · cases m.doc <;> cases m.errors.isEmpty <;> cases m.oneWay <;> simp_all [text?, Members.keys]
  · cases m.doc <;> cases m.errors.isEmpty <;> cases m.oneWay <;>
      simp [text?, Members.keys] <;> decide

theorem hasDistinctKeys_types {types : List NamedType} (h : ∀ t ∈ types, t.Meets .distinct) :
    (Json.array (types.map ofType)).HasDistinctKeys := by
  rw [Json.hasDistinctKeys_array]
  intro v hv
  obtain ⟨t, ht, rfl⟩ := List.mem_map.mp hv
  exact hasDistinctKeys_ofType (h t ht)

theorem hasDistinctKeys_ofMessages {messages : List Message}
    (h : ∀ m ∈ messages, m.Meets .distinct) :
    (Json.object (ofMessages messages)).HasDistinctKeys := by
  rw [Json.hasDistinctKeys_object]
  refine ⟨Members.nodup_keys_insertAll (by simp [Members.keys]), fun entry hentry => ?_⟩
  rcases Members.mem_insertAll hentry with hentry | hentry
  · simp at hentry
  · obtain ⟨m, hm, rfl⟩ := List.mem_map.mp hentry
    exact hasDistinctKeys_ofMessage (h m hm)

end Canonical

namespace Protocol

open Canonical

variable {p : Protocol}

theorem hasDistinctKeys_toJson (h : p.Meets .distinct) : p.toJson.HasDistinctKeys := by
  have htypes := hasDistinctKeys_types h.types
  have hmessages := hasDistinctKeys_ofMessages h.messages
  rw [toJson, custom_eq h.properties.1]
  generalize Json.array (p.types.map ofType) = types at htypes
  generalize Json.object (ofMessages p.messages) = messages at hmessages
  refine hasDistinctKeys_around h.properties ?_ ?_
  · cases p.space <;> cases p.doc <;> simp_all [text?, Members.keys]
  · cases p.space <;> cases p.doc <;> simp [text?, Members.keys] <;> decide

/-! ## The canonical text -/

theorem checked_eq_ok_iff {q : Protocol} : p.checked = .ok q ↔ p.validate = .ok () ∧ p = q := by
  unfold checked
  split <;> simp_all

/-- The text of the document is read as the protocol with or without a line feed behind it, as
far as the reader of texts allows for the depth of the document. -/
theorem ofText_toPrettyText_append {blank : String} (hblank : ∀ c ∈ blank.toList, Json.isGap c)
    (h : p.IsExpressible) (hdistinct : p.Meets .distinct)
    (hnumbers : p.toJson.NumbersReadBack) (hvalid : p.validate = .ok ())
    (hdepth : p.toJson.depth ≤ Json.maxDepth) :
    ofText (p.toJson.toPrettyText ++ blank) = .ok p := by
  have hread : Json.read (p.toJson.toPrettyText ++ blank) = .ok p.toJson :=
    Json.read_toPrettyText_append hblank (hasDistinctKeys_toJson hdistinct) hnumbers hdepth
  have hunchecked : ofUncheckedText (p.toJson.toPrettyText ++ blank) = .ok p := by
    rw [ofUncheckedText, hread]
    exact ofJson_toJson h
  exact Except.bind_eq_ok_iff.mpr ⟨p, hunchecked, checked_eq_ok_iff.mpr ⟨hvalid, rfl⟩⟩

/-- **The canonical text is read as the protocol**, as far as the reader of texts allows for
the depth of the document. -/
theorem ofText_canonicalText (h : p.IsExpressible) (hdistinct : p.Meets .distinct)
    (hnumbers : p.toJson.NumbersReadBack) (hvalid : p.validate = .ok ())
    (hdepth : p.toJson.depth ≤ Json.maxDepth) : ofText p.canonicalText = .ok p :=
  ofText_toPrettyText_append (by simp [Json.isGap]) h hdistinct hnumbers hvalid hdepth

/-- A canonical text that nests deeper is rejected, whatever the protocol. -/
theorem ofText_canonicalText_of_lt (hdistinct : p.Meets .distinct)
    (hnumbers : p.toJson.NumbersReadBack) (hdepth : Json.maxDepth < p.toJson.depth) :
    ∃ failure, ofText p.canonicalText = .error (.json failure) ∧ failure.fault = .tooDeep := by
  have hblank : ∀ c ∈ "\n".toList, Json.isGap c := by simp [Json.isGap]
  obtain ⟨failure, hread, hfault⟩ :=
    Json.read_toPrettyText_append_of_lt hblank (hasDistinctKeys_toJson hdistinct) hnumbers hdepth
  have hunchecked : ofUncheckedText p.canonicalText = .error (.json failure) := by
    rw [ofUncheckedText, canonicalText, hread]
  refine ⟨failure, ?_, hfault⟩
  rw [ofText, hunchecked]
  rfl

end Protocol

end IdlCompiler
