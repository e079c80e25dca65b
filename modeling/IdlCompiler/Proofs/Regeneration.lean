/-
# Generating code from the document in the code

Generated code holds the canonical document of its protocol in a raw literal.  The literal is
found behind the first place where the constant that holds it is opened, and it is read as the
document without the line feed at its end, `Target.embeddedDocument?_code`.  The document is
accepted again, as it nests no deeper than the document that the protocol was read from, and the
protocol that it shows is resolved in the same way.  So the code that is generated from the
document in the code is the code, `Protocol.generateFromText_embeddedDocument`.
-/
import Mathlib
import IdlCompiler.Proofs.DocumentDepth
import IdlCompiler.Proofs.Products
import IdlCompiler.Proofs.RawLiterals

namespace IdlCompiler

open Json (Members)

/-- In a value with distinct keys no map of what is read holds a key twice. -/
theorem Conditions.keyed_holdIn {v : Json} (h : v.HasDistinctKeys) : keyed.HoldIn v := by
  have hpart : ∀ w ∈ v.parts, w.HasDistinctKeys :=
    fun w hw ms hms => h ms (Json.parts_subset_of_mem hw hms)
  refine ⟨fun ms hms keys => ?_, hpart, fun _ _ _ _ => trivial⟩
  obtain ⟨hnodup, hvalues⟩ := Json.hasDistinctKeys_object.mp (hpart _ hms)
  refine Json.hasDistinctKeys_object.mpr ⟨?_, fun m hm => hvalues m (List.mem_of_mem_filter hm)⟩
  exact (Members.keys_filter (fun key => !keys.contains key) ms) ▸ hnodup.filter _

/-! ## What is shown is valid -/

namespace Protocol

variable {p : Protocol}

@[simp] theorem hasType_shown (p : Protocol) : p.shown.hasType = p.hasType := rfl

@[simp] theorem fullNameOf_shown (p : Protocol) (t : NamedType) :
    p.shown.fullNameOf t.shown = p.fullNameOf t := rfl

theorem getType?_shown (p : Protocol) (reference : String) :
    p.shown.getType? reference = (p.getType? reference).map NamedType.shown := by
  have hresolve : p.shown.resolve? reference = p.resolve? reference := rfl
  rw [getType?, getType?, hresolve]
  cases p.resolve? reference <;> simp [shown]

@[simp] theorem branchKey_shown (p : Protocol) : p.shown.branchKey = p.branchKey := by
  funext s
  cases s with
  | named name => simp only [branchKey, getType?_shown]; cases p.getType? name <;> rfl
  | _ => rfl

@[simp] theorem allowsSchema_shown {s : Schema} : p.shown.AllowsSchema s ↔ p.AllowsSchema s := by
  induction s using Schema.induction with
  | primitive type => simp [AllowsSchema]
  | named name => simp [AllowsSchema]
  | array items ih => simpa [AllowsSchema] using ih
  | map values ih => simpa [AllowsSchema] using ih
  | union branches ih =>
    have hbranches : p.shown.AllowsSchemas branches ↔ p.AllowsSchemas branches := by
      rw [allowsSchemas_iff, allowsSchemas_iff]
      exact forall₂_congr ih
    simp [AllowsSchema, hbranches]

theorem AllowsFields.shown {fields : List Field} (h : p.AllowsFields fields) :
    p.shown.AllowsFields (fields.map Field.shown) := by
  refine ⟨?_, ?_, ?_⟩
  · simpa [Field.shown] using h.isIdentifier
  · simpa [Function.comp_def, Field.shown] using h.nodup
  · simpa [Field.shown] using h.schema

theorem AllowsType.shown {t : NamedType} (h : p.AllowsType t) : p.shown.AllowsType t.shown := by
  refine ⟨h.isIdentifier, h.isDotted, ?_⟩
  have hbody := h.body
  cases hkind : t.body with
  | record isError fields =>
    rw [hkind] at hbody
    simpa [NamedType.shown, hkind, TypeBody.shown, AllowsBody] using AllowsFields.shown hbody
  | symbols names =>
    rw [hkind] at hbody
    simpa [NamedType.shown, hkind, TypeBody.shown, AllowsBody] using hbody
  | fixed size =>
    rw [hkind] at hbody
    simpa [NamedType.shown, hkind, TypeBody.shown, AllowsBody] using hbody

theorem isError_shown (t : NamedType) : t.shown.isError = t.isError := by
  cases hkind : t.body <;> simp [NamedType.shown, NamedType.isError, TypeBody.shown, hkind]

theorem AllowsMessage.shown {m : Message} (h : p.AllowsMessage m) :
    p.shown.AllowsMessage m.shown where
  isIdentifier := h.isIdentifier
  request := h.request.shown
  response := allowsSchema_shown.mpr h.response
  errors := by
    intro e he
    obtain ⟨t, ht, herror⟩ := h.errors e he
    exact ⟨t.shown, by rw [getType?_shown, ht]; rfl, by rwa [isError_shown]⟩
  oneWay := h.oneWay

/-- What a document shows of a well-formed protocol is well formed. -/
theorem WellFormed.shown (hp : p.WellFormed) : p.shown.WellFormed where
  isIdentifier := hp.isIdentifier
  isDotted := hp.isDotted
  nodup_types := (map_fullNameOf_shown p).symm ▸ hp.nodup_types
  types := List.forall_mem_map.mpr fun t ht => (hp.types t ht).shown
  nodup_messages := (map_name_messages_shown p).symm ▸ hp.nodup_messages
  messages := List.forall_mem_map.mpr fun m hm => (hp.messages m hm).shown

/-! ## What is shown is resolved in the same way -/

theorem resolveName_shown (reference : String) :
    p.shown.resolveName reference = p.resolveName reference := by
  rw [resolveName, resolveName, getType?_shown]
  cases p.getType? reference <;> rfl

theorem ofBody_shown (body : TypeBody) : ResolvedBody.ofBody body.shown = .ofBody body := by
  cases body with
  | record isError fields =>
    simp only [TypeBody.shown, ResolvedBody.ofBody, List.map_map]
    exact congrArg _ (List.map_congr_left fun _ _ => rfl)
  | symbols names => rfl
  | fixed size => rfl

theorem ofType_shown (t : NamedType) : ResolvedType.ofType p.shown t.shown = .ofType p t := by
  have hbody : ResolvedBody.ofBody t.shown.body = .ofBody t.body := ofBody_shown t.body
  rw [ResolvedType.ofType, hbody]
  rfl

theorem ofMessage_shown (m : Message) :
    ResolvedMessage.ofMessage p.shown m.shown = .ofMessage p m := by
  have hresolve : p.shown.resolveName = p.resolveName := funext fun _ => resolveName_shown _
  have hrequest : m.shown.request.map ResolvedField.ofField = m.request.map .ofField := by
    simp only [Message.shown, List.map_map]
    exact List.map_congr_left fun _ _ => rfl
  rw [ResolvedMessage.ofMessage, hrequest, hresolve]
  rfl

/-- **A protocol and what its document shows of it are resolved in the same way.** -/
theorem ofProtocol_shown (p : Protocol) : Resolved.ofProtocol p.shown = .ofProtocol p := by
  have htypes : p.shown.types.map (ResolvedType.ofType p.shown) = p.types.map (.ofType p) :=
    List.map_map.trans (List.map_congr_left fun t _ => ofType_shown t)
  have hmessages : p.shown.messages.map (ResolvedMessage.ofMessage p.shown) =
      p.messages.map (.ofMessage p) :=
    List.map_map.trans (List.map_congr_left fun m _ => ofMessage_shown m)
  have hreferences : Resolved.referencesOf p.shown = Resolved.referencesOf p := by
    simp only [Resolved.referencesOf, shown, List.foldl_map]
    rfl
  have hcanonical : p.shown.canonicalText = p.canonicalText := by
    rw [canonicalText, toJson_shown, canonicalText]
  rw [Resolved.ofProtocol, htypes, hmessages, hreferences, hcanonical, map_fullNameOf_shown]
  rfl

/-! ## The document of what was read is read -/

theorem exists_of_ofText {text : String} (h : ofText text = .ok p) :
    ∃ v, Json.read text = .ok v ∧ ofJson v = .ok p := by
  obtain ⟨q, hq, hchecked⟩ := Except.bind_eq_ok_iff.mp h
  obtain ⟨-, rfl⟩ := checked_eq_ok_iff.mp hchecked
  unfold ofUncheckedText at hq
  split at hq
  · cases hq
  · exact ⟨_, ‹_›, hq⟩

/-- **The document of what was read from a text is read as what it shows**, with or without a
line feed behind it. -/
theorem ofText_toPrettyText_append_of_ofText {text blank : String} (h : ofText text = .ok p)
    (hnumbers : p.toJson.NumbersReadBack) (hblank : ∀ c ∈ blank.toList, Json.isGap c) :
    ofText (p.toJson.toPrettyText ++ blank) = .ok p.shown := by
  obtain ⟨v, hread, hp⟩ := exists_of_ofText h
  have hwell := wellFormed_of_ofText h
  have hexpressible : p.shown.IsExpressible :=
    ⟨(meets_plain_of_ofJson hp).shown Conditions.plain_shownAs_expressible,
      (map_name_messages_shown p).symm ▸ hwell.nodup_messages, (isIndexed_of_ofJson hp).shown⟩
  have hdistinct : p.shown.Meets .distinct :=
    (meets_of_ofJson hp (Conditions.keyed_holdIn (Json.hasDistinctKeys_of_read hread))).shown
      Conditions.keyed_shownAs_distinct
  have hdepth : p.toJson.depth ≤ Json.maxDepth :=
    (depth_toJson_le hp).trans (max_le (Json.depth_le_of_read hread) (by decide))
  have hshown := ofText_toPrettyText_append hblank hexpressible hdistinct
  rw [toJson_shown] at hshown
  exact hshown hnumbers (validate_eq_ok_iff.mpr hwell.shown) hdepth

end Protocol

/-! ## The document in the code -/

namespace Target

/-- The document in generated code: the raw literal behind the first place where the constant
that holds it is opened. -/
def embeddedDocument? (code : String) : Option String :=
  (code.toList.dropInfix? literalOpening.toList).bind fun (_, rest) =>
    (readRawLiteral rest).map String.ofList

/-- The characters hold no colon behind the last letter of the constant's name, and start with no
colon. -/
def IsUnmarked (cs : List Char) : Prop := ¬ ['L', ':'] <:+: cs ∧ cs.head? ≠ some ':'

instance (cs : List Char) : Decidable (IsUnmarked cs) := inferInstanceAs (Decidable (_ ∧ _))

theorem isUnmarked_of_notMem {cs : List Char} (h : ':' ∉ cs) : IsUnmarked cs := by
  refine ⟨fun hinside => h (hinside.subset (by simp)), fun hhead => h ?_⟩
  exact List.mem_of_mem_head? (by simp [hhead])

theorem IsUnmarked.append {cs ds : List Char} (hcs : IsUnmarked cs) (hds : IsUnmarked ds) :
    IsUnmarked (cs ++ ds) := by
  refine ⟨fun hinside => ?_, ?_⟩
  · obtain h | h | ⟨front, back, heq, hfront, hback⟩ := List.infix_append_iff.mp hinside
    · exact hcs.1 h
    · exact hds.1 h
    · cases front with
      | nil =>
        obtain rfl : ['L', ':'] = back := heq
        exact hds.1 hback.isInfix
      | cons a front =>
        obtain ⟨rfl, hrest⟩ : 'L' = a ∧ [':'] = front ++ back := by simpa using heq
        cases front with
        | nil =>
          -- the letter stands at the end of `cs` and the colon at the start of `ds`
          obtain rfl : [':'] = back := hrest
          obtain ⟨rest, rfl⟩ := hback
          exact hds.2 rfl
        | cons b front =>
          obtain ⟨rfl, rfl, rfl⟩ : ':' = b ∧ front = [] ∧ back = [] := by simpa using hrest
          exact hcs.1 hfront.isInfix
  · cases cs with
    | nil => exact hds.2
    | cons c cs => simpa using hcs.2

theorem isUnmarked_join {ls : List String} (h : ∀ l ∈ ls, IsUnmarked l.toList) :
    IsUnmarked (String.join ls).toList := by
  induction ls with
  | nil => decide
  | cons l ls ih =>
    rw [List.forall_mem_cons] at h
    rw [String.join_cons, String.toList_append]
    exact h.1.append (ih h.2)

theorem isUnmarked_line_constant {front name : String} (hfront : IsUnmarked front.toList)
    (hname : ':' ∉ name.toList) :
    IsUnmarked (line 0 (front ++ plainLiteral name ++ ";")).toList := by
  have hend : IsUnmarked "\";\n".toList := by decide +kernel
  have hchars : (line 0 (front ++ plainLiteral name ++ ";")).toList =
      front.toList ++ ("\"".toList ++ (name.toList ++ "\";\n".toList)) := by
    simp [line_zero, plainLiteral]
  rw [hchars]
  exact hfront.append (.append (by decide) (.append (isUnmarked_of_notMem hname) hend))

/-- Up to the constant that holds the document there is no colon behind the last letter of its
name. -/
theorem isUnmarked_linesBefore {p : Protocol} (hp : p.WellFormed) :
    IsUnmarked (Module.ofResolved (.ofProtocol p)).linesBefore.toList := by
  have htitle : ':' ∉ p.title.toList :=
    fun hmem => absurd (hp.isPart_or_eq_dot_of_mem_title hmem) (by decide)
  have hname : ':' ∉ p.name.toList :=
    fun hmem => absurd (Name.isPart_of_mem hp.isIdentifier hmem) (by decide)
  have hheader : IsUnmarked (Module.ofResolved (.ofProtocol p)).headerText.toList := by
    rw [Module.headerText_eq, String.toList_append, String.toList_append]
    exact .append (.append (by decide +kernel) (isUnmarked_of_notMem htitle)) (by decide +kernel)
  refine isUnmarked_join ?_
  simp only [List.forall_mem_cons, List.not_mem_nil, false_imp_iff, implies_true, and_true]
  refine ⟨hheader, by decide +kernel, isUnmarked_line_constant (by decide +kernel) hname,
    by decide +kernel, ?_, by decide +kernel⟩
  have hspace : (Module.ofResolved (.ofProtocol p)).space = p.space := rfl
  rw [hspace]
  cases hspace : p.space with
  | none => decide
  | some space =>
    have hmem : ':' ∉ space.toList := fun hmem =>
      absurd (Name.isPart_or_eq_dot_of_mem (hp.isDotted space (by simp [hspace])) hmem) (by decide)
    refine isUnmarked_join ?_
    simp only [List.forall_mem_cons, List.not_mem_nil, false_imp_iff, implies_true, and_true]
    exact ⟨by decide +kernel, isUnmarked_line_constant (by decide +kernel) hmem, by decide⟩

/-- **The constant that holds the document is the first one that is opened like this.** -/
theorem dropInfix?_code {p : Protocol} (hp : p.WellFormed) (rest : List Char) :
    ((Module.ofResolved (.ofProtocol p)).linesBefore.toList ++
      (literalOpening.toList ++ rest)).dropInfix? literalOpening.toList =
        some ((Module.ofResolved (.ofProtocol p)).linesBefore.toList, rest) := by
  have hopening : literalOpening.toList =
      "pub const PROTOCO".toList ++ (['L', ':'] ++ " &str = ".toList) := by decide
  have hname : "pub const PROTOCOL".toList = "pub const PROTOCO".toList ++ ['L'] := by decide
  have hunmarked := (isUnmarked_linesBefore hp).append
    (by decide +kernel : IsUnmarked "pub const PROTOCOL".toList)
  generalize (Module.ofResolved (.ofProtocol p)).linesBefore.toList = before at hunmarked
  refine List.dropInfix?_eq_some_iff.mpr ⟨⟨_, (List.append_assoc ..).symm, beq_self_eq_true _⟩, ?_⟩
  intro front opening back heq hbeq
  obtain rfl := eq_of_beq hbeq
  by_contra hshort
  -- else its colon would stand in front of the colon of this one
  have hfront : front ++ ("pub const PROTOCO".toList ++ ['L', ':']) <+:
      front ++ literalOpening.toList ++ back := by
    rw [hopening]
    exact ⟨" &str = ".toList ++ back, by simp only [List.append_assoc]⟩
  have hbefore : before ++ "pub const PROTOCOL".toList <+:
      front ++ literalOpening.toList ++ back := by
    rw [← heq, hopening, hname]
    exact ⟨':' :: " &str = ".toList ++ rest, by simp⟩
  have hbegins := List.prefix_of_prefix_length_le hfront hbefore (by simp; omega)
  have hends : ['L', ':'] <:+ front ++ ("pub const PROTOCO".toList ++ ['L', ':']) :=
    (List.suffix_append _ _).trans (List.suffix_append _ _)
  exact hunmarked.1 (hends.isInfix.trans hbegins.isInfix)

/-- The document in the code of a well-formed protocol is its own. -/
theorem embeddedDocument?_code {p : Protocol} (hp : p.WellFormed) :
    embeddedDocument? (Resolved.ofProtocol p).code = some p.toJson.toPrettyText := by
  have hcode : (Resolved.ofProtocol p).code =
      ((Resolved.ofProtocol p).withText p.canonicalText).code := rfl
  -- the number signs are counted on the text with the line feed
  have hend : ¬ rawEnd (rawHashes p.canonicalText) <:+: p.toJson.toPrettyText.toList := by
    refine fun hinside => rawHashes_spec p.canonicalText (hinside.trans ?_)
    rw [Protocol.canonicalText, String.toList_append]
    exact (List.prefix_append _ _).isInfix
  rw [hcode, code_withText_eq, Protocol.literalOf_canonicalText, embeddedDocument?]
  simp only [String.toList_append, dropInfix?_code hp, Option.bind_some,
    readRawLiteral_rawLiteral hend, Option.map_some, String.ofList_toList]

end Target

/-! ## Generating again -/

theorem generateFromText_eq_ok_iff {text code : String} : generateFromText text = .ok code ↔
    ∃ p, Protocol.ofText text = .ok p ∧ (Resolved.ofProtocol p).code = code := by
  unfold generateFromText
  cases Protocol.ofText text <;> simp

/-- **Code regenerates itself.**  The literal in the code that is generated from a document holds
the canonical text of the protocol without the line feed at its end, and from this text, with or
without the line feed, exactly the code is generated again. -/
theorem generateFromText_embeddedDocument {text code : String}
    (h : generateFromText text = .ok code)
    (hnumbers : ∀ p, Protocol.ofText text = .ok p → p.toJson.NumbersReadBack) :
    ∃ p document, Protocol.ofText text = .ok p ∧ p.canonicalText = document ++ "\n" ∧
      Target.embeddedDocument? code = some document ∧
      generateFromText document = .ok code ∧ generateFromText p.canonicalText = .ok code := by
  obtain ⟨p, hp, rfl⟩ := generateFromText_eq_ok_iff.mp h
  have hagain : ∀ blank : String, (∀ c ∈ blank.toList, Json.isGap c) →
      generateFromText (p.toJson.toPrettyText ++ blank) = .ok (Resolved.ofProtocol p).code := by
    intro blank hblank
    refine generateFromText_eq_ok_iff.mpr ⟨p.shown, ?_, by rw [Protocol.ofProtocol_shown]⟩
    exact Protocol.ofText_toPrettyText_append_of_ofText hp (hnumbers p hp) hblank
  have hbare := hagain "" (by simp)
  rw [String.append_empty] at hbare
  exact ⟨p, p.toJson.toPrettyText, hp, rfl,
    Target.embeddedDocument?_code (Protocol.wellFormed_of_ofText hp), hbare,
    hagain "\n" (by simp [Json.isGap])⟩

/-- A document whose documentation looks like the end of a literal and like the start of the
constant, with a property that the canonical document leaves out. -/
def quotingText : String := String.ofList (
  "\x7b\"doc\": \"\\\"# pub const PROTOCOL: &str = r\\\"##\", \"protocol\": \"P\", ".toList ++
  "\"types\": [\x7b\"type\": \"record\", \"name\": \"R\", \"fields\": [".toList ++
  "\x7b\"name\": \"x\", \"type\": \x7b\"type\": \"int\"\x7d, \"size\": \"big\"\x7d]\x7d]\x7d".toList)

/-- A document that is given by its characters can be read by evaluation. -/
theorem Protocol.exists_of_documentCharacters {cs : List Char} {good : Protocol → Prop}
    [DecidablePred good]
    (h : (Json.readWhole (Json.readValue Json.maxDepth) cs).toOption.any (fun v =>
      (ofJson v >>= checked).toOption.any fun p => decide (good p)) = true) :
    ∃ p, ofText (String.ofList cs) = .ok p ∧ good p := by
  have hread : Json.read (String.ofList cs) = Json.readWhole (Json.readValue Json.maxDepth) cs := by
    rw [Json.read, String.toList_ofList]
  rw [← hread] at h
  rw [ofText, ofUncheckedText]
  cases hv : Json.read (String.ofList cs) with
  | error e =>
    rw [hv] at h
    cases h
  | ok v =>
    rw [hv] at h
    cases hp : ofJson v >>= checked with
    | error e =>
      rw [Except.toOption, Option.any, hp] at h
      cases h
    | ok p =>
      rw [Except.toOption, Option.any, hp] at h
      exact ⟨p, rfl, of_decide_eq_true h⟩

/-- The code of this document regenerates itself, though the property is lost. -/
theorem quotingText_regenerates : ∃ code, generateFromText quotingText = .ok code ∧
    ∃ p document, Protocol.ofText quotingText = .ok p ∧ ¬ p.shown.same p ∧
      p.canonicalText = document ++ "\n" ∧ Target.embeddedDocument? code = some document ∧
      generateFromText document = .ok code := by
  obtain ⟨p, hp, hnumbers, hlost⟩ : ∃ p, Protocol.ofText quotingText = .ok p ∧
      (p.toJson.parts.all fun w => !w.isNumber) ∧ ¬ p.shown.same p :=
    Protocol.exists_of_documentCharacters (by decide +kernel)
  have hcode := generateFromText_eq_ok_iff.mpr ⟨p, hp, rfl⟩
  obtain ⟨q, document, hq, htext, hdocument, hagain, -⟩ := generateFromText_embeddedDocument hcode
    fun q hq => Except.ok.inj (hp.symm.trans hq) ▸ Json.numbersReadBack_of_all hnumbers
  obtain rfl := Except.ok.inj (hp.symm.trans hq)
  exact ⟨_, hcode, p, document, hp, hlost, htext, hdocument, hagain⟩

end IdlCompiler
