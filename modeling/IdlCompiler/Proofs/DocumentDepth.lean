/-
# How deep the document of a protocol nests

The document of a protocol that was read from another document nests no deeper than that one:
every part of it is written no deeper than the part that it was read from.  Only a protocol
without types or messages gets an empty list or an empty object that the other document may leave
out, `Protocol.depth_toJson_le`.
-/
import IdlCompiler.Proofs.Rereading

namespace IdlCompiler

open Json (Members)

namespace Json

variable {members : Members} {items : List Json} {v : Json} {key : String}

theorem depth_le_depthOfItems (h : v ∈ items) : v.depth ≤ depthOfItems items :=
  depthOfItems_le_iff.mp le_rfl v h

theorem depth_le_depthOfMembers (h : (key, v) ∈ members) : v.depth ≤ depthOfMembers members :=
  depthOfMembers_le_iff.mp le_rfl _ h

theorem depth_array_le_iff {n : Nat} :
    (array items).depth ≤ n + 1 ↔ ∀ v ∈ items, v.depth ≤ n := by
  simp [depth]

theorem depth_object_le_iff {n : Nat} :
    (object members).depth ≤ n + 1 ↔ ∀ m ∈ members, m.2.depth ≤ n := by
  simp [depth]

/-- Items that are read from the items of an array and written again nest no deeper. -/
theorem depth_array_map_le {α : Type} {read : Json → Reading α} {write : α → Json} {as : List α}
    (h : items.mapM read = .ok as)
    (hread : ∀ v ∈ items, ∀ a, read v = .ok a → (write a).depth ≤ v.depth) :
    (array (as.map write)).depth ≤ (array items).depth := by
  refine depth_array_le_iff.mpr ?_
  rw [List.forall_mem_map]
  exact forall_mem_of_mapM h fun v hv a ha =>
    (hread v hv a ha).trans (depth_le_depthOfItems hv)

end Json

namespace Document

open Json Canonical

variable {members : Members} {part : DocumentPart} {v : Json}

theorem depth_of_mem_text? {key : String} {value : Option String} {m : String × Json}
    (hm : m ∈ text? key value) : m.2.depth = 0 := by
  cases value with
  | none => simp [text?] at hm
  | some s =>
    obtain rfl := List.mem_singleton.mp hm
    rfl

theorem depth_le_of_mem_custom {keys : List String} {m : String × Json}
    (hm : m ∈ custom (customProperties members keys)) : m.2.depth ≤ depthOfMembers members :=
  depth_le_depthOfMembers (List.mem_of_mem_filter (List.mem_of_mem_filter hm))

theorem depth_texts_le (values : List String) : (texts values).depth ≤ 1 := by
  rw [texts, Json.depth_array_le_iff, List.forall_mem_map]
  exact fun _ _ => le_rfl

theorem depth_readSchema_le {s : Schema} (h : readSchema v = .ok s) : s.toJson.depth ≤ v.depth := by
  induction v using Json.induction generalizing s with
  | null | bool | number => cases h
  | string word =>
    cases h
    unfold Schema.ofWord
    split <;> exact le_rfl
  | array items ih =>
    rw [readSchema, readSchemas_eq_mapM, Except.bind_eq_ok_iff] at h
    obtain ⟨branches, hbranches, heq⟩ := h
    cases heq
    rw [Schema.toJson, Schema.toJsonAll_eq_map]
    exact depth_array_map_le hbranches fun v hv b hb => ih v hv hb
  | object members ih =>
    -- what stands in a container is written in an object as well
    have hinner : ∀ {word key : String} {inner : Schema} {m : String × Json}, m ∈ members →
        readSchema m.2 = .ok inner →
        (object [("type", .string word), (key, inner.toJson)]).depth ≤ (object members).depth := by
      intro word key inner m hm hread
      refine depth_object_le_iff.mpr ?_
      simpa [depth] using (ih m hm hread).trans (depth_le_depthOfMembers hm)
    obtain ⟨inner, m, hm, hs, rfl | rfl⟩ | ⟨type, rfl⟩ := readSchema_object_cases h
    · exact hinner hm hs
    · exact hinner hm hs
    · exact Nat.zero_le _

theorem depth_readField_le {f : Field} (h : readField v = .ok f) : (ofField f).depth ≤ v.depth := by
  obtain ⟨members, w, rfl, htype, hschema, hdefault, hproperties⟩ := of_readField_eq_ok h
  refine depth_object_le_iff.mpr fun m hm => ?_
  simp only [List.mem_append, List.mem_cons, List.not_mem_nil, or_false, hproperties] at hm
  obtain (((rfl | rfl) | hm) | hm) | hm := hm
  · exact Nat.zero_le _
  · exact (depth_readSchema_le hschema).trans (depth_le_depthOfMembers htype)
  · exact (depth_of_mem_text? hm).trans_le (Nat.zero_le _)
  · split at hm
    · simp at hm
    · rename_i w hw
      obtain rfl := List.mem_singleton.mp hm
      exact depth_le_depthOfMembers (Members.mem_of_get? (hdefault ▸ hw))
  · exact depth_le_of_mem_custom hm

theorem depth_readBody_le {kind : String} {body : TypeBody}
    (h : readBody members kind part = .ok body) :
    (ofBody body).2.depth ≤ depthOfMembers members := by
  obtain ⟨isError, items, fields, rfl, hitems, hfields⟩ | ⟨items, symbols, rfl, hitems⟩ |
      ⟨size, rfl⟩ :=
    of_readBody_eq_ok h
  · have hread := depth_array_map_le hfields fun _ _ _ => depth_readField_le
    exact hread.trans (depth_le_depthOfMembers hitems)
  · exact (depth_texts_le symbols).trans
      ((Nat.succ_le_succ (Nat.zero_le _)).trans (depth_le_depthOfMembers hitems))
  · exact Nat.zero_le _

theorem depth_readType_le {t : NamedType} (h : readType v = .ok t) :
    (ofType t).depth ≤ v.depth := by
  obtain ⟨members, kind, part, rfl, hbody, hproperties⟩ := of_readType_eq_ok h
  refine depth_object_le_iff.mpr fun m hm => ?_
  simp only [List.mem_append, List.mem_cons, List.not_mem_nil, or_false, hproperties] at hm
  obtain (((( rfl | rfl) | hm) | hm) | hm) | rfl := hm
  · exact Nat.zero_le _
  · exact Nat.zero_le _
  · exact (depth_of_mem_text? hm).trans_le (Nat.zero_le _)
  · exact (depth_of_mem_text? hm).trans_le (Nat.zero_le _)
  · exact depth_le_of_mem_custom hm
  · exact depth_readBody_le hbody

theorem depth_readMessage_le {name : String} {m : Message} (h : readMessage name v = .ok m) :
    (ofMessage m).depth ≤ v.depth := by
  obtain ⟨members, items, w, rfl, hitems, hrequest, hresponse, hschema, hproperties, -⟩ :=
    of_readMessage_eq_ok h
  have hread := (depth_array_map_le hrequest fun _ _ _ => depth_readField_le).trans
    (depth_le_depthOfMembers hitems)
  refine depth_object_le_iff.mpr fun m hm => ?_
  simp only [List.mem_append, List.mem_cons, List.not_mem_nil, or_false, hproperties] at hm
  obtain (((hm | hm) | (rfl | rfl)) | hm) | hm := hm
  · exact (depth_of_mem_text? hm).trans_le (Nat.zero_le _)
  · exact depth_le_of_mem_custom hm
  · exact hread
  · exact (depth_readSchema_le hschema).trans (depth_le_depthOfMembers hresponse)
  · split at hm
    · simp at hm
    · -- the list of the parameters is as deep as that of the errors at least
      obtain rfl := List.mem_singleton.mp hm
      exact (depth_texts_le _).trans ((Nat.succ_le_succ (Nat.zero_le _)).trans hread)
  · split at hm
    · obtain rfl := List.mem_singleton.mp hm
      exact Nat.zero_le _
    · simp at hm

theorem depth_readTypes_le {types : List NamedType} (h : readTypes members = .ok types) :
    (array (types.map ofType)).depth ≤ max (depthOfMembers members) 1 := by
  obtain rfl | ⟨items, hitems, hread⟩ := of_readTypes_eq_ok h
  · exact le_max_right _ _
  · have hle := depth_array_map_le hread fun _ _ _ => depth_readType_le
    exact (hle.trans (depth_le_depthOfMembers hitems)).trans (le_max_left _ _)

theorem depth_readMessages_le {messages : List Message} (h : readMessages members = .ok messages) :
    (object (ofMessages messages)).depth ≤ max (depthOfMembers members) 1 := by
  obtain rfl | ⟨entries, hentries, hread⟩ := of_readMessages_eq_ok h
  · exact le_max_right _ _
  · have hmessages : ∀ m ∈ messages, (ofMessage m).depth ≤ depthOfMembers entries :=
      forall_mem_of_mapM hread fun entry hentry m hm =>
        (depth_readMessage_le hm).trans (depth_le_depthOfMembers hentry)
    have hle : (object (ofMessages messages)).depth ≤ (object entries).depth := by
      refine depth_object_le_iff.mpr fun entry hentry => ?_
      obtain hentry | hentry := Members.mem_insertAll hentry
      · simp at hentry
      · obtain ⟨m, hm, rfl⟩ := List.mem_map.mp hentry
        exact hmessages m hm
    exact (hle.trans (depth_le_depthOfMembers hentries)).trans (le_max_left _ _)

end Document

namespace Protocol

open Json Document Canonical

variable {p : Protocol} {v : Json}

/-- **The document of what was read nests no deeper than what it was read from**, but for the
lists of types and messages, which it holds even if they are empty. -/
theorem depth_toJson_le (h : ofJson v = .ok p) : p.toJson.depth ≤ max v.depth 2 := by
  obtain ⟨members, rfl, htypes, hmessages, hproperties, -⟩ := of_ofJson_eq_ok h
  have hmax : max (object members).depth 2 = max (depthOfMembers members) 1 + 1 :=
    (Nat.add_max_add_right ..)
  rw [hmax]
  refine depth_object_le_iff.mpr fun m hm => ?_
  simp only [List.mem_append, List.mem_cons, List.not_mem_nil, or_false, hproperties] at hm
  obtain (((rfl | hm) | hm) | hm) | (rfl | rfl) := hm
  · exact Nat.zero_le _
  · exact (depth_of_mem_text? hm).trans_le (Nat.zero_le _)
  · exact (depth_of_mem_text? hm).trans_le (Nat.zero_le _)
  · exact (depth_le_of_mem_custom hm).trans (le_max_left _ _)
  · exact depth_readTypes_le htypes
  · exact depth_readMessages_le hmessages

end Protocol

end IdlCompiler
