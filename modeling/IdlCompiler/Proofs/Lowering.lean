/-
# From an interface definition to the canonical text and back

Everything that the grammar of interface definitions denotes can stand in a canonical
document: properties have keys without a meaning of their own, no reference has the name of a
primitive type, and the objects in defaults and properties have distinct keys.  So the
canonical text of a protocol that is read from an interface definition is read as the same
protocol, unless its document nests too deep.  The grammar counts the levels of types and of
values, the document counts open brackets around both; `Protocol.ofText_canonicalText_ofIdl`
says that this decides.
-/
import IdlCompiler.Proofs.DocumentText
import IdlCompiler.Proofs.Units

namespace IdlCompiler

namespace Idl

/-! ## What holds of all phrases in a row -/

section Repetition

variable {α : Type} {P : Phrases α} {Q : α → Prop} {ts : List Token} {as : List α}

theorem Repeated.forall_mem (h : Repeated P ts as) (hP : ∀ ts a, P ts a → Q a) :
    ∀ a ∈ as, Q a := by
  induction h with
  | nil => simp
  | cons head tail ih => exact List.forall_mem_cons.mpr ⟨hP _ _ head, ih⟩

theorem Separated.forall_mem (h : Separated P ts as) (hP : ∀ ts a, P ts a → Q a) :
    ∀ a ∈ as, Q a := by
  induction h with
  | one head => exact List.forall_mem_singleton.mpr (hP _ _ head)
  | cons head _ tail ih => exact List.forall_mem_cons.mpr ⟨hP _ _ head, ih⟩

theorem Listed.forall_mem (h : Listed P ts as) (hP : ∀ ts a, P ts a → Q a) : ∀ a ∈ as, Q a := by
  induction h with
  | nil => simp
  | one head => exact List.forall_mem_singleton.mpr (hP _ _ head)
  | cons head _ tail ih => exact List.forall_mem_cons.mpr ⟨hP _ _ head, ih⟩

end Repetition

/-! ## Values, annotations and types -/

variable {ts : List Token} {levels : Nat}

/-- An object keeps the last of several members with one key. -/
theorem hasDistinctKeys_insertAll {members : Json.Members}
    (h : ∀ m ∈ members, m.2.HasDistinctKeys) :
    (Json.object (Json.Members.insertAll [] members)).HasDistinctKeys := by
  rw [Json.hasDistinctKeys_object]
  refine ⟨Json.Members.nodup_keys_insertAll (by simp [Json.Members.keys]), fun m hm => ?_⟩
  rcases Json.Members.mem_insertAll hm with hm | hm
  · simp at hm
  · exact h m hm

theorem hasDistinctKeys_of_isValue {v : Json} (h : IsValue levels ts v) : v.HasDistinctKeys := by
  induction levels generalizing ts v with
  | zero => exact h.elim
  | succ levels ih =>
    cases h with
    | string | yes | no | null => simp
    | number _ decoded => exact Json.hasDistinctKeys_of_read decoded
    | array _ items _ =>
      exact Json.hasDistinctKeys_array.mpr (items.forall_mem fun _ _ => ih)
    | object _ items _ =>
      refine hasDistinctKeys_insertAll (items.forall_mem fun _ _ h => ?_)
      cases h with
      | member _ _ _ phrase => exact ih phrase

theorem hasPlainReferences_ofWord {word : String} : (Schema.ofWord word).HasPlainReferences := by
  unfold Schema.ofWord
  split
  · simp [Schema.HasPlainReferences, Schema.references]
  · rename_i hword
    simpa [Schema.HasPlainReferences, Schema.references] using hword

theorem hasPlainReferences_of_isType {s : Schema} (h : IsType levels ts s) :
    s.HasPlainReferences := by
  induction levels generalizing ts s with
  | zero => exact h.elim
  | succ levels ih =>
    cases h with
    | word => exact hasPlainReferences_ofWord
    | array _ _ items _ =>
      have hitems := ih items
      exact hitems
    | map _ _ values _ =>
      have hvalues := ih values
      exact hvalues
    | union _ _ branches _ =>
      intro name hname
      rw [Schema.references, Schema.referencesOfAll_eq_flatMap, List.mem_flatMap] at hname
      obtain ⟨s, hs, hname⟩ := hname
      exact branches.forall_mem (fun _ _ => ih) s hs name hname

/-- Annotations that the grammar and the rules allow: each but the namespace gives a property
that a document can express. -/
def GiveProperties (annotations : List Annotation) : Prop :=
  ∀ a ∈ annotations, a.value.HasDistinctKeys ∧ (a.name ≠ "namespace" → ¬ isReservedKey a.name)

theorem hasDistinctKeys_of_isNote {a : Annotation} (h : IsNote ts a) :
    a.value.HasDistinctKeys := by
  cases h with
  | note _ _ _ value _ => exact hasDistinctKeys_of_isValue value

theorem giveProperties_onType {annotations : List Annotation}
    (notes : Repeated IsNote ts annotations) (allowed : Rules.language.AllowsOnType annotations) :
    GiveProperties annotations := by
  intro a ha
  refine ⟨notes.forall_mem (fun _ _ => hasDistinctKeys_of_isNote) a ha, fun hname => ?_⟩
  have hallowed := allowed a ha
  rwa [if_neg hname] at hallowed

theorem giveProperties_onMember {annotations : List Annotation}
    (notes : Repeated IsNote ts annotations)
    (allowed : Rules.language.AllowsOnMember annotations) : GiveProperties annotations :=
  fun a ha => ⟨notes.forall_mem (fun _ _ => hasDistinctKeys_of_isNote) a ha,
    fun _ => (allowed a ha).2⟩

/-! ## Declarations -/

/-- Conditions that all properties, defaults and schemas meet which the grammar denotes. -/
structure HoldsOfPhrases (c : Conditions) : Prop where
  properties : ∀ {annotations}, GiveProperties annotations →
    c.properties (propertiesOf annotations)
  default : ∀ {ts v}, IsValue maxNesting ts v → c.default v
  schema : ∀ {ts s}, IsType maxNesting ts s → c.schema s
  null : c.schema .null

theorem mem_propertiesOf {annotations : List Annotation} {m : String × Json}
    (h : m ∈ propertiesOf annotations) :
    ∃ a ∈ annotations, a.name ≠ "namespace" ∧ m = (a.name, a.value) := by
  rcases Json.Members.mem_insertAll h with h | h
  · simp at h
  · obtain ⟨a, ha, rfl⟩ := List.mem_map.mp h
    obtain ⟨hmem, hname⟩ := List.mem_filter.mp ha
    exact ⟨a, hmem, by simpa using hname, rfl⟩

theorem areCustom_propertiesOf {annotations : List Annotation} (h : GiveProperties annotations) :
    Properties.AreCustom (propertiesOf annotations) := by
  intro m hm
  obtain ⟨a, ha, hname, rfl⟩ := mem_propertiesOf hm
  exact (h a ha).2 hname

theorem holdsOfPhrases_expressible : HoldsOfPhrases .expressible where
  properties := areCustom_propertiesOf
  default _ := trivial
  schema := hasPlainReferences_of_isType
  null := by simp [Schema.HasPlainReferences, Schema.references]

theorem holdsOfPhrases_distinct : HoldsOfPhrases .distinct where
  properties h := by
    refine ⟨areCustom_propertiesOf h, hasDistinctKeys_insertAll fun m hm => ?_⟩
    obtain ⟨a, ha, rfl⟩ := List.mem_map.mp hm
    exact (h a (List.mem_filter.mp ha).1).1
  default := hasDistinctKeys_of_isValue
  schema _ := trivial
  null := trivial

section Declarations

variable {c : Conditions} (hc : HoldsOfPhrases c)

include hc

theorem HoldsOfPhrases.isDefault {default? : Option Json} (h : IsDefault ts default?) :
    ∀ v ∈ default?, c.default v := by
  cases h with
  | none => simp
  | some _ value => simpa using hc.default value

theorem HoldsOfPhrases.isFields {fields : List Field} (h : IsFields .language ts fields) :
    ∀ f ∈ fields, f.Meets c := by
  cases h with
  | fields notes allowed type names _ =>
    refine names.forall_mem fun _ _ h => ?_
    cases h with
    | named _ default =>
      exact ⟨hc.properties (giveProperties_onMember notes allowed), hc.isDefault default,
        hc.schema type⟩

theorem HoldsOfPhrases.isParameter {f : Field} (h : IsParameter .language ts f) : f.Meets c := by
  cases h with
  | parameter notes allowed type _ default =>
    exact ⟨hc.properties (giveProperties_onMember notes allowed), hc.isDefault default,
      hc.schema type⟩

theorem HoldsOfPhrases.isBody {keyword name : String} {body : TypeBody}
    (h : IsBody .language keyword ts (name, body)) : body.Meets c := by
  cases h with
  | record _ _ members _ =>
    intro f hf
    obtain ⟨fields, hfields, hf⟩ := List.mem_flatten.mp hf
    exact members.forall_mem (fun _ _ => hc.isFields) fields hfields f hf
  | enum => trivial
  | fixed => trivial

theorem HoldsOfPhrases.isMessage {m : Message} (h : IsMessage .language ts m) :
    (∀ f ∈ m.request, f.Meets c) ∧ c.schema m.response := by
  cases h with
  | message answer _ _ parameters _ _ _ _ =>
    refine ⟨parameters.forall_mem fun _ _ => hc.isParameter, ?_⟩
    cases answer with
    | void => exact hc.null
    | type type _ => exact hc.schema type

/-- A declared type or message meets the conditions. -/
theorem HoldsOfPhrases.isDeclaration {d : Declaration} (h : IsDeclaration .language ts d) :
    (∀ t ∈ d.type?, t.Meets c) ∧ ∀ m ∈ d.message?, m.Meets c := by
  cases h with
  | type notes allowed _ phrase =>
    refine ⟨fun t ht => ?_, nofun⟩
    obtain rfl := Option.some.inj ht
    exact ⟨hc.properties (giveProperties_onType notes allowed), hc.isBody phrase⟩
  | message notes allowed phrase =>
    refine ⟨nofun, fun m hm => ?_⟩
    obtain rfl := Option.some.inj hm
    obtain ⟨hrequest, hresponse⟩ := hc.isMessage phrase
    exact ⟨hc.properties (giveProperties_onMember notes allowed), hrequest, hresponse⟩

theorem HoldsOfPhrases.isUnit {p : Protocol} (h : IsUnit .language ts p) : p.Meets c := by
  cases h with
  | unit notes allowed _ _ _ members _ _ =>
    have hmembers := members.forall_mem fun _ _ => hc.isDeclaration
    refine ⟨hc.properties (giveProperties_onType notes allowed), fun t ht => ?_, fun m hm => ?_⟩
    · obtain ⟨d, hd, ht⟩ := List.mem_filterMap.mp ht
      exact (hmembers d hd).1 t ht
    · obtain ⟨d, hd, hm⟩ := List.mem_filterMap.mp hm
      exact (hmembers d hd).2 m hm

end Declarations

theorem isIndexed_of_isUnit {rules : Rules} {p : Protocol} (h : IsUnit rules ts p) :
    p.IsIndexed := by
  cases h with
  | unit => exact Protocol.isIndexed_iff.mpr rfl

end Idl

namespace Protocol

/-- The tokens of an interface definition that is read are a unit of the grammar, which is well
formed. -/
theorem exists_tokens_of_ofIdl {text : String} {p : Protocol} (h : ofIdl text = .ok p) :
    ∃ tokens, Idl.tokenize text = .ok tokens ∧ Idl.IsUnit .language tokens p ∧
      p.validate = .ok () := by
  obtain ⟨tokens, htokens, h⟩ := Except.bind_eq_ok_iff.mp h
  obtain ⟨q, hparse, h⟩ := Except.bind_eq_ok_iff.mp h
  obtain ⟨hvalid, rfl⟩ := checked_eq_ok_iff.mp h
  have hends := Idl.endsOnce_of_tokenize htokens
  exact ⟨tokens, htokens, (Idl.parseTokens_eq_ok_iff_isUnit hends).mp hparse, hvalid⟩

theorem isUnit_of_ofIdl {text : String} {p : Protocol} (h : ofIdl text = .ok p) :
    (∃ tokens, Idl.IsUnit .language tokens p) ∧ p.validate = .ok () := by
  obtain ⟨tokens, -, hunit, hvalid⟩ := exists_tokens_of_ofIdl h
  exact ⟨⟨tokens, hunit⟩, hvalid⟩

theorem isExpressible_of_ofIdl {text : String} {p : Protocol} (h : ofIdl text = .ok p) :
    p.IsExpressible := by
  obtain ⟨⟨tokens, hunit⟩, hvalid⟩ := isUnit_of_ofIdl h
  exact ⟨Idl.holdsOfPhrases_expressible.isUnit hunit,
    (validate_eq_ok_iff.mp hvalid).nodup_messages, Idl.isIndexed_of_isUnit hunit⟩

/-- **The canonical text of a lowered protocol is read back if, and only if, it does not nest
too deep.** -/
theorem ofText_canonicalText_ofIdl {text : String} {p : Protocol} (h : ofIdl text = .ok p)
    (hnumbers : p.toJson.NumbersReadBack) :
    (p.toJson.depth ≤ Json.maxDepth → ofText p.canonicalText = .ok p) ∧
      (Json.maxDepth < p.toJson.depth → ∃ failure,
        ofText p.canonicalText = .error (.json failure) ∧ failure.fault = .tooDeep) := by
  obtain ⟨⟨tokens, hunit⟩, hvalid⟩ := isUnit_of_ofIdl h
  have hdistinct : p.Meets .distinct := Idl.holdsOfPhrases_distinct.isUnit hunit
  exact ⟨ofText_canonicalText (isExpressible_of_ofIdl h) hdistinct hnumbers hvalid,
    ofText_canonicalText_of_lt hdistinct hnumbers⟩

/-- A record whose field has empty arrays inside one another as its default. -/
def nestingText (levels : Nat) : String := String.ofList <|
  "protocol P \x7b record R \x7b int x = ".toList ++ List.replicate levels '['
    ++ List.replicate levels ']' ++ "; \x7d \x7d".toList

/-- What is read from the characters of an interface definition, without packing them into a
text first.  Taking them out of the text again is slow to evaluate. -/
theorem exists_of_characters {cs : List Char} {good : Protocol → Prop} [DecidablePred good]
    (h : (Idl.tokensFrom cs.length .start none cs >>= fun tokens =>
      Idl.parseTokens tokens >>= checked).toOption.any (fun p => decide (good p)) = true) :
    ∃ p, ofIdl (String.ofList cs) = .ok p ∧ good p := by
  have hread : ofIdl (String.ofList cs) = Idl.tokensFrom cs.length .start none cs >>=
      fun tokens => Idl.parseTokens tokens >>= checked := by
    rw [ofIdl, Idl.tokenize, String.toList_ofList]
  rw [← hread] at h
  cases hp : ofIdl (String.ofList cs) with
  | error e =>
    rw [hp] at h
    cases h
  | ok p =>
    rw [hp] at h
    exact ⟨p, rfl, of_decide_eq_true h⟩

/-- A default inside 123 arrays is allowed in an interface definition, which stops at 128, and
makes a document of 128 open brackets, one more than the reader of documents allows. -/
theorem nestingText_isTooDeep : ∃ p, ofIdl (nestingText 123) = .ok p ∧
    p.toJson.NumbersReadBack ∧ ∃ failure,
      ofText p.canonicalText = .error (.json failure) ∧ failure.fault = .tooDeep := by
  have hread : ∃ p, ofIdl (nestingText 123) = .ok p ∧
      p.toJson.parts.all (fun v => !v.isNumber) ∧ Json.maxDepth < p.toJson.depth :=
    exists_of_characters (by decide +kernel)
  obtain ⟨p, hp, hparts, hdepth⟩ := hread
  have hnumbers := Json.numbersReadBack_of_all hparts
  exact ⟨p, hp, hnumbers, (ofText_canonicalText_ofIdl hp hnumbers).2 hdepth⟩

end Protocol

end IdlCompiler
