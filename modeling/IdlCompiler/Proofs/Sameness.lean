/-
# Documents of protocols that are the same

Protocols that are the same have documents that are the same, `Protocol.same_toJson`.  A
document has the attributes of a part at fixed places, so that those of two parts that are the
same are aligned, `Json.Members.Aligned`.  Custom properties are paired only: each has a
counterpart with its key somewhere, `Json.Members.Paired`.  Both go together in one object, as
the keys of the document of a protocol are distinct, whatever properties the protocol has.
-/
import IdlCompiler.Proofs.Layout
import IdlCompiler.Proofs.Rereading

namespace IdlCompiler

open Json (Members)

/-! ## Aligned and paired members -/

namespace Json.Members

variable {related : Json → Json → Prop} {ms ns ms' ns' : Members} {key : String} {v w : Json}

/-- At equal places stand members with one key and values that are the same. -/
abbrev Aligned (ms ns : Members) : Prop :=
  List.Forall₂ (fun m n => m.1 = n.1 ∧ m.2.same n.2) ms ns

theorem Aligned.insert (h : Aligned ms ns) (hvw : v.same w) :
    Aligned (ms.insert key v) (ns.insert key w) := by
  induction h with
  | nil => exact .cons ⟨rfl, hvw⟩ .nil
  | @cons m n ms ns hmn hrest ih =>
    obtain ⟨k, a⟩ := m
    obtain ⟨l, b⟩ := n
    obtain ⟨rfl, hab⟩ : k = l ∧ a.same b := hmn
    by_cases hk : k = key
    · simpa [Members.insert, hk, hvw] using hrest
    · simpa [Members.insert, hk, hab] using ih

theorem Aligned.insertAll (h : Aligned ms ns) (hextra : Aligned ms' ns') :
    Aligned (ms.insertAll ms') (ns.insertAll ns') := by
  induction hextra generalizing ms ns with
  | nil => exact h
  | @cons m n ms' ns' hmn hrest ih =>
    obtain ⟨k, a⟩ := m
    obtain ⟨l, b⟩ := n
    obtain ⟨rfl, hab⟩ : k = l ∧ a.same b := hmn
    exact ih (h.insert hab)

/-- Aligned members are paired, as a key finds the member at its place. -/
theorem Aligned.paired (h : Aligned ms ns) (hnodup : (keys ms).Nodup) :
    Paired (fun v w => v.same w) ms ns := by
  refine ⟨h.length_eq, ?_⟩
  induction h with
  | nil => simp
  | @cons m n ms ns hmn hrest ih =>
    obtain ⟨hkey, hvalue⟩ := hmn
    obtain ⟨hnew, hnodup⟩ := List.nodup_cons.mp hnodup
    refine List.forall_mem_cons.mpr ⟨⟨n.2, by rw [get?, if_pos hkey.symm], hvalue⟩, fun l hl => ?_⟩
    have hne : n.1 ≠ l.1 := by
      intro heq
      have hmem : l.1 ∈ keys ms := List.mem_map_of_mem hl
      exact hnew (by rwa [hkey, heq])
    obtain ⟨w, hget, hw⟩ := ih hnodup l hl
    exact ⟨w, by rw [get?, if_neg hne, hget], hw⟩

theorem mem_keys_of_get? (h : get? ms key = some v) : key ∈ keys ms :=
  List.mem_map.mpr ⟨_, mem_of_get? h, rfl⟩

namespace Paired

theorem keys_perm (h : Paired related ms ns) (hnodup : (keys ms).Nodup) :
    (keys ms).Perm (keys ns) := by
  have hsubset : keys ms ⊆ keys ns := by
    intro key hkey
    obtain ⟨m, hm, rfl⟩ := List.mem_map.mp hkey
    obtain ⟨w, hget, -⟩ := h.exists_get? m hm
    exact mem_keys_of_get? hget
  exact (hnodup.subperm hsubset).perm_of_length_le (by simpa [keys] using h.length_eq.ge)

theorem append (h : Paired related ms ns) (h' : Paired related ms' ns')
    (hnodup : (keys (ms ++ ms')).Nodup) : Paired related (ms ++ ms') (ns ++ ns') := by
  rw [keys, List.map_append, List.nodup_append] at hnodup
  obtain ⟨hfirst, -, hapart⟩ := hnodup
  refine ⟨by simp [h.length_eq, h'.length_eq], fun m hm => ?_⟩
  rw [get?_append]
  rcases List.mem_append.mp hm with hm | hm
  · obtain ⟨w, hget, hw⟩ := h.exists_get? m hm
    exact ⟨w, by rw [hget, Option.some_or], hw⟩
  · obtain ⟨w, hget, hw⟩ := h'.exists_get? m hm
    have hnone : get? ns m.1 = none := by
      by_contra hsome
      obtain ⟨u, hu⟩ := Option.ne_none_iff_exists'.mp hsome
      have hmem := mem_keys_of_get? hu
      rw [← (h.keys_perm hfirst).mem_iff] at hmem
      exact hapart _ hmem _ (List.mem_map_of_mem hm) rfl
    exact ⟨w, by rw [hnone, Option.none_or, hget], hw⟩

end Paired

theorem get?_filter {keep : String → Bool} (h : keep key) :
    get? (ms.filter fun m => keep m.1) key = get? ms key := by
  induction ms with
  | nil => rfl
  | cons m ms ih =>
    obtain ⟨k, v⟩ := m
    by_cases hk : k = key
    · subst hk
      simp [get?, h]
    · cases hkeep : keep k <;> simp [get?, hk, hkeep, ih]

theorem keys_filter (keep : String → Bool) (ms : Members) :
    keys (ms.filter fun m => keep m.1) = (keys ms).filter keep := by
  rw [keys, keys, List.filter_map]
  rfl

/-- What is kept for its key is kept together with its counterpart. -/
theorem Paired.filter (h : Paired related ms ns) (hnodup : (keys ms).Nodup)
    (keep : String → Bool) :
    Paired related (ms.filter fun m => keep m.1) (ns.filter fun m => keep m.1) := by
  refine ⟨?_, fun m hm => ?_⟩
  · have hperm := (h.keys_perm hnodup).filter keep
    rw [← keys_filter, ← keys_filter] at hperm
    simpa [keys] using hperm.length_eq
  · obtain ⟨hm, hkeep⟩ := List.mem_filter.mp hm
    rw [get?_filter hkeep]
    exact h.exists_get? m hm

end Json.Members

/-! ## Parts of documents -/

/-- The maps of a part hold no key twice. -/
abbrev Conditions.keyed : Conditions where
  properties ps := (Json.object ps).HasDistinctKeys
  default := Json.HasDistinctKeys
  schema _ := True

theorem Conditions.keyed_shownAs_distinct : Conditions.keyed.ShownAs .distinct := by
  refine ⟨fun ps h => ⟨Canonical.areCustom_custom, ?_⟩, fun _ h => h, fun _ h => h⟩
  obtain ⟨hnodup, hvalues⟩ := Json.hasDistinctKeys_object.mp h
  refine Json.hasDistinctKeys_object.mpr ⟨?_, fun m hm => hvalues m (List.mem_of_mem_filter hm)⟩
  exact (Members.keys_filter (fun key => !isReservedKey key) ps) ▸ hnodup.filter _

theorem sameList_iff {α : Type} {same : α → α → Bool} {as bs : List α} :
    sameList same as bs ↔ List.Forall₂ (fun a b => same a b) as bs := by
  induction as generalizing bs with
  | nil => cases bs <;> simp [sameList]
  | cons a as ih => cases bs <;> simp [sameList, ih]

theorem forall₂_map_of_sameList {α β : Type} {same : α → α → Bool} {related : β → β → Prop}
    {f g : α → β} {as bs : List α} (h : sameList same as bs)
    (hfg : ∀ a ∈ as, ∀ b, same a b → related (f a) (g b)) :
    List.Forall₂ related (as.map f) (bs.map g) := by
  rw [List.forall₂_map_left_iff, List.forall₂_map_right_iff]
  exact Json.forall₂_imp_of_mem (sameList_iff.mp h) hfg

theorem Json.same_array_of_sameList {α : Type} {same : α → α → Bool} {f : α → Json}
    {as bs : List α} (h : sameList same as bs) (hf : ∀ a ∈ as, ∀ b, same a b → (f a).same (f b)) :
    (Json.array (as.map f)).same (.array (bs.map f)) := by
  rw [Json.same, sameItems_iff]
  exact forall₂_map_of_sameList h hf

namespace Canonical

variable {before before' after after' : Members} {a b : Properties} {key : String}
  {value : Option String}

/-- Properties that are the same, among aligned attributes, leave an object the same. -/
theorem same_around (hbefore : Members.Aligned before before') (hprops : Properties.same a b)
    (hafter : Members.Aligned after after') (ha : (Members.keys a).Nodup)
    (hkeys : (Json.object (before ++ custom a ++ after)).HasDistinctKeys) :
    (Json.object (before ++ custom a ++ after)).same
      (.object (before' ++ custom b ++ after')) := by
  have hnodup := (Json.hasDistinctKeys_object.mp hkeys).1
  have hparts := hnodup
  simp only [Members.keys, List.map_append, List.nodup_append] at hparts
  obtain ⟨⟨hbeforeKeys, -, -⟩, hafterKeys, -⟩ := hparts
  have hcustom : Members.Paired (fun v w => v.same w) (custom a) (custom b) :=
    (Json.same_object_iff.mp hprops).filter ha fun key => !isReservedKey key
  have hfirst : (Members.keys (before ++ custom a)).Nodup := by
    rw [Members.keys, List.map_append] at hnodup
    exact hnodup.of_append_left
  exact Json.same_object_iff.mpr
    (((hbefore.paired hbeforeKeys).append hcustom hfirst).append (hafter.paired hafterKeys) hnodup)

/-- An attribute whose values are the same. -/
theorem aligned_single {v w : Json} (h : v.same w) : Members.Aligned [(key, v)] [(key, w)] :=
  .cons ⟨rfl, h⟩ .nil

theorem same_string (s : String) : (Json.string s).same (.string s) := by simp [Json.same]

theorem aligned_text? : Members.Aligned (text? key value) (text? key value) := by
  cases value with
  | none => exact .nil
  | some s => exact aligned_single (same_string s)

mutual

theorem same_schema : (s : Schema) → s.toJson.same s.toJson
  | .primitive type => by simp [Schema.toJson, Json.same]
  | .named name => by simp [Schema.toJson, Json.same]
  | .array items => by
    simp [Schema.toJson, Json.same, Json.sameMembers, Members.get?, same_schema items]
  | .map values => by
    simp [Schema.toJson, Json.same, Json.sameMembers, Members.get?, same_schema values]
  | .union branches => by simpa [Schema.toJson, Json.same] using same_schemas branches

theorem same_schemas : (ss : List Schema) →
    Json.sameItems (Schema.toJsonAll ss) (Schema.toJsonAll ss)
  | [] => rfl
  | s :: ss => by
    simpa [Schema.toJsonAll, Json.sameItems] using ⟨same_schema s, same_schemas ss⟩

end

theorem same_texts (values : List String) : (texts values).same (texts values) := by
  rw [texts, Json.same, Json.sameItems_iff]
  refine List.forall₂_same.mpr fun v hv => ?_
  obtain ⟨s, -, rfl⟩ := List.mem_map.mp hv
  exact same_string s

theorem aligned_default {v w : Option Json} : sameDefault v w → Members.Aligned
    (match v with
      | none => []
      | some v => [("default", v)])
    (match w with
      | none => []
      | some w => [("default", w)]) := by
  intro h
  cases v with
  | none =>
    cases w with
    | none => exact .nil
    | some w => cases h
  | some v =>
    cases w with
    | none => cases h
    | some w => exact aligned_single h

theorem nodup_keys_of_keyed {ps : Properties} (h : Conditions.keyed.properties ps) :
    (Members.keys ps).Nodup :=
  (Json.hasDistinctKeys_object.mp h).1

/-! ## Documents -/

theorem same_ofField {f g : Field} (h : f.same g) (hf : f.Meets .keyed) :
    (ofField f).same (ofField g) := by
  have hkeys : (ofField f).HasDistinctKeys :=
    ofField_shown f ▸ hasDistinctKeys_ofField (hf.shown Conditions.keyed_shownAs_distinct)
  obtain ⟨hname, hschema, hdefault, hdoc, hprops⟩ := Field.same_iff.mp h
  unfold ofField at hkeys ⊢
  rw [← hname, ← hschema, ← hdoc, ← List.append_nil (_ ++ custom g.properties)]
  rw [← List.append_nil (_ ++ custom f.properties)] at hkeys ⊢
  refine same_around ?_ hprops .nil (nodup_keys_of_keyed hf.properties) hkeys
  exact List.rel_append (List.rel_append
    (.cons ⟨rfl, same_string _⟩ (aligned_single (same_schema _))) aligned_text?)
    (aligned_default hdefault)

theorem same_ofFields {fs gs : List Field} (h : sameList Field.same fs gs)
    (hfs : ∀ f ∈ fs, f.Meets .keyed) :
    (Json.array (fs.map ofField)).same (.array (gs.map ofField)) :=
  Json.same_array_of_sameList h fun f hf _ hfg => same_ofField hfg (hfs f hf)

/-- Bodies that are the same are shown under the same key. -/
theorem aligned_ofBody {body other : TypeBody} (h : body.same other) (hbody : body.Meets .keyed) :
    Members.Aligned [ofBody body] [ofBody other] := by
  obtain ⟨e, fs, gs, rfl, rfl, hfields⟩ | ⟨names, rfl, rfl⟩ | ⟨size, rfl, rfl⟩ :=
    TypeBody.of_same h
  · exact aligned_single (same_ofFields hfields hbody)
  · exact aligned_single (same_texts names)
  · exact aligned_single (by simp [Json.same, Json.Number.same])

theorem kindName_eq_of_same {t u : NamedType} (h : t.body.same u.body) :
    t.kindName = u.kindName := by
  obtain ⟨e, fs, gs, ht, hu, -⟩ | ⟨names, ht, hu⟩ | ⟨size, ht, hu⟩ := TypeBody.of_same h
  all_goals rw [NamedType.kindName, NamedType.kindName, ht, hu]

theorem same_ofType {t u : NamedType} (h : t.same u) (ht : t.Meets .keyed) :
    (ofType t).same (ofType u) := by
  have hkeys : (ofType t).HasDistinctKeys :=
    ofType_shown t ▸ hasDistinctKeys_ofType (ht.shown Conditions.keyed_shownAs_distinct)
  obtain ⟨hname, hspace, hdoc, hprops, hbody⟩ := NamedType.same_iff.mp h
  unfold ofType at hkeys ⊢
  rw [← kindName_eq_of_same hbody, ← hname, ← hspace, ← hdoc]
  refine same_around ?_ hprops (aligned_ofBody hbody ht.body) (nodup_keys_of_keyed ht.properties)
    hkeys
  exact List.rel_append (List.rel_append
    (.cons ⟨rfl, same_string _⟩ (aligned_single (same_string _))) aligned_text?) aligned_text?

theorem same_ofMessage {m n : Message} (h : m.same n) (hm : m.Meets .keyed) :
    (ofMessage m).same (ofMessage n) := by
  have hkeys : (ofMessage m).HasDistinctKeys :=
    ofMessage_shown m ▸ hasDistinctKeys_ofMessage (hm.shown Conditions.keyed_shownAs_distinct)
  obtain ⟨-, hdoc, hprops, hrequest, hresponse, herrors, honeWay⟩ := Message.same_iff.mp h
  unfold ofMessage at hkeys ⊢
  rw [← hdoc, ← hresponse, ← herrors, ← honeWay]
  have hassoc : ∀ as bs cs ds es : Members,
      as ++ bs ++ cs ++ ds ++ es = as ++ bs ++ (cs ++ (ds ++ es)) := by
    simp
  rw [hassoc] at hkeys
  rw [hassoc, hassoc]
  refine same_around aligned_text? hprops ?_ (nodup_keys_of_keyed hm.properties) hkeys
  refine List.rel_append (.cons ⟨rfl, same_ofFields hrequest hm.request⟩
    (aligned_single (same_schema _))) (List.rel_append ?_ ?_)
  · split
    · exact .nil
    · exact aligned_single (same_texts _)
  · split
    · exact aligned_single rfl
    · exact .nil

theorem same_ofTypes {ts us : List NamedType} (h : sameList NamedType.same ts us)
    (hts : ∀ t ∈ ts, t.Meets .keyed) :
    (Json.array (ts.map ofType)).same (.array (us.map ofType)) :=
  Json.same_array_of_sameList h fun t ht _ htu => same_ofType htu (hts t ht)

/-- Messages with one name are stored at one place on both sides. -/
theorem same_ofMessages {ms ns : List Message} (h : sameList Message.same ms ns)
    (hms : ∀ m ∈ ms, m.Meets .keyed) :
    (Json.object (ofMessages ms)).same (.object (ofMessages ns)) := by
  have hentries : Members.Aligned (ms.map fun m => (m.name, ofMessage m))
      (ns.map fun m => (m.name, ofMessage m)) :=
    forall₂_map_of_sameList h fun m hm n hmn =>
      ⟨(Message.same_iff.mp hmn).1, same_ofMessage hmn (hms m hm)⟩
  have hstored : Members.Aligned (ofMessages ms) (ofMessages ns) :=
    Members.Aligned.insertAll .nil hentries
  have hnodup : (Members.keys (ofMessages ms)).Nodup :=
    Members.nodup_keys_insertAll (by simp [Members.keys])
  exact Json.same_object_iff.mpr (hstored.paired hnodup)

end Canonical

namespace Protocol

open Canonical

variable {p q : Protocol}

/-- No map of the protocol holds a key twice: neither custom properties nor objects inside them
or inside defaults, nor the lookup. -/
structure HasDistinctKeys (p : Protocol) : Prop where
  meets : p.Meets .keyed
  lookup : (p.lookup.map Prod.fst).Nodup

theorem HasDistinctKeys.toJson (h : p.HasDistinctKeys) : p.toJson.HasDistinctKeys :=
  toJson_shown (p := p) ▸ hasDistinctKeys_toJson (h.meets.shown Conditions.keyed_shownAs_distinct)

/-- **Protocols that are the same have documents that are the same.** -/
theorem same_toJson (h : p.same q) (hp : p.HasDistinctKeys) : p.toJson.same q.toJson := by
  have hkeys := hp.toJson
  obtain ⟨hname, hspace, hdoc, hprops, htypes, hmessages, -⟩ := same_iff.mp h
  unfold toJson at hkeys ⊢
  rw [← hname, ← hspace, ← hdoc]
  refine same_around ?_ hprops ?_ (nodup_keys_of_keyed hp.meets.properties) hkeys
  · exact List.rel_append (List.rel_append (aligned_single (same_string _)) aligned_text?)
      aligned_text?
  · exact .cons ⟨rfl, same_ofTypes htypes hp.meets.types⟩
      (aligned_single (same_ofMessages hmessages hp.meets.messages))

end Protocol

end IdlCompiler
