/-
# Texts of protocols that are the same

Protocols that are the same are resolved in the same way, `Resolved.ofProtocol_eq_of_same`, but
for the text of the canonical document.  The generated code has this text in one raw literal and
nowhere else, `Target.code_withText_eq`, and the literal shows the text, `Target.rawLiteral_inj`.
So two protocols that are the same have one code exactly if they have one canonical text, and
that is so exactly if their documents have one layout, `Protocol.texts_eq_iff_of_same`.
-/
import IdlCompiler.Proofs.Sameness
import IdlCompiler.Target.Source

namespace IdlCompiler

open Json (Members)

/-! ## Resolved forms -/

theorem Table.find?_eq_of_same {α : Type} [BEq α] [LawfulBEq α] {table other : Table α}
    (h : table.same other) (hnodup : (table.map Prod.fst).Nodup) (key : String) :
    table.find? key = other.find? key := by
  simp only [same, Bool.and_eq_true, beq_iff_eq, List.all_eq_true] at h
  obtain ⟨hlength, hfound⟩ := h
  cases hkey : table.find? key with
  | some a => exact (hfound _ (mem_of_find?_eq_some hkey)).symm
  | none =>
    -- Both tables have the same keys.
    have hsubset : table.map Prod.fst ⊆ other.map Prod.fst := by
      intro k hk
      obtain ⟨e, he, rfl⟩ := List.mem_map.mp hk
      exact List.mem_map_of_mem (mem_of_find?_eq_some (hfound e he))
    have hperm := (hnodup.subperm hsubset).perm_of_length_le (by simpa using hlength.ge)
    refine (find?_eq_none_iff.mpr fun e he heq => ?_).symm
    have hmem : key ∈ table.map Prod.fst := hperm.mem_iff.mpr (heq ▸ List.mem_map_of_mem he)
    obtain ⟨e', he', heq'⟩ := List.mem_map.mp hmem
    exact find?_eq_none_iff.mp hkey e' he' heq'

theorem map_eq_map_of_sameList {α β : Type} {same : α → α → Bool} {f g : α → β} {as bs : List α}
    (h : sameList same as bs) (hfg : ∀ a b, same a b → f a = g b) : as.map f = bs.map g := by
  rw [← List.forall₂_eq_eq_eq]
  exact forall₂_map_of_sameList h fun a _ b hab => hfg a b hab

theorem ResolvedField.map_ofField_eq_of_same {fs gs : List Field}
    (h : sameList Field.same fs gs) : fs.map ofField = gs.map ofField := by
  refine map_eq_map_of_sameList h fun f g hfg => ?_
  obtain ⟨hname, hschema, -, hdoc, -⟩ := Field.same_iff.mp hfg
  rw [ofField, ofField, hname, hschema, hdoc]

theorem ResolvedBody.ofBody_eq_of_same {body other : TypeBody} (h : body.same other) :
    ofBody body = ofBody other := by
  obtain ⟨e, fs, gs, rfl, rfl, hfields⟩ | ⟨names, rfl, rfl⟩ | ⟨size, rfl, rfl⟩ :=
    TypeBody.of_same h
  · rw [ofBody, ofBody, ResolvedField.map_ofField_eq_of_same hfields]
  · rfl
  · rfl

section Resolved

variable {p q : Protocol}

theorem Protocol.fullNameOf_eq_of_same {t u : NamedType} (hspace : p.space = q.space)
    (h : t.same u) : p.fullNameOf t = q.fullNameOf u := by
  obtain ⟨hname, hown, -⟩ := NamedType.same_iff.mp h
  simp only [fullNameOf, NamedType.fullName, hspace, hname, hown]

theorem Protocol.map_fullNameOf_eq_of_same (hspace : p.space = q.space)
    (h : sameList NamedType.same p.types q.types) :
    p.types.map p.fullNameOf = q.types.map q.fullNameOf :=
  map_eq_map_of_sameList h fun _ _ htu => fullNameOf_eq_of_same hspace htu

theorem ResolvedType.map_ofType_eq_of_same (hspace : p.space = q.space)
    (h : sameList NamedType.same p.types q.types) :
    p.types.map (ofType p) = q.types.map (ofType q) := by
  refine map_eq_map_of_sameList h fun t u htu => ?_
  have hfull := Protocol.fullNameOf_eq_of_same hspace htu
  obtain ⟨hname, -, hdoc, -, hbody⟩ := NamedType.same_iff.mp htu
  rw [ofType, ofType, hfull, hname, hdoc, ResolvedBody.ofBody_eq_of_same hbody]

/-- Only the full names of the types and the lookup matter for what a reference stands for. -/
theorem Protocol.resolveName_eq (p : Protocol) (reference : String) : p.resolveName reference =
    ((p.resolve? reference).bind fun i => (p.types.map p.fullNameOf)[i]?).getD reference := by
  rw [resolveName, getType?]
  cases p.resolve? reference with
  | none => rfl
  | some i => cases hi : p.types[i]? <;> simp [hi]

theorem Protocol.resolveName_eq_of_same (hspace : p.space = q.space)
    (htypes : sameList NamedType.same p.types q.types)
    (hlookup : ∀ key, p.lookup.find? key = q.lookup.find? key) : p.resolveName = q.resolveName := by
  funext reference
  rw [resolveName_eq, resolveName_eq, map_fullNameOf_eq_of_same hspace htypes, resolve?, resolve?,
    hspace]
  simp only [hlookup]

theorem ResolvedMessage.map_ofMessage_eq_of_same {ms ns : List Message}
    (hnames : p.resolveName = q.resolveName) (h : sameList Message.same ms ns) :
    ms.map (ofMessage p) = ns.map (ofMessage q) := by
  refine map_eq_map_of_sameList h fun m n hmn => ?_
  obtain ⟨hname, hdoc, -, hrequest, hresponse, herrors, honeWay⟩ := Message.same_iff.mp hmn
  rw [ofMessage, ofMessage, hnames, hname, hdoc, hresponse, herrors, honeWay,
    ResolvedField.map_ofField_eq_of_same hrequest]

/-- A pass over the types enters the same names if it enters the same for each of them. -/
theorem foldl_eq_of_sameList {α β : Type} {same : α → α → Bool} {f g : β → α → β} {as bs : List α}
    (h : sameList same as bs) (hfg : ∀ a b c, same a b → f c a = g c b) (c : β) :
    as.foldl f c = bs.foldl g c := by
  refine List.rel_foldl (P := Eq) (fun c d hcd a b hab => ?_) rfl (sameList_iff.mp h)
  rw [← hcd, hfg a b c hab]

theorem Resolved.referencesOf_eq_of_same (hspace : p.space = q.space)
    (h : sameList NamedType.same p.types q.types) : referencesOf p = referencesOf q := by
  have hnames : ∀ t u table, t.same u → enterNames p table t = enterNames q table u := by
    intro t u table htu
    rw [enterNames, enterNames, Protocol.fullNameOf_eq_of_same hspace htu,
      (NamedType.same_iff.mp htu).1]
  have hownNames : ∀ t u table, t.same u → enterOwnName p table t = enterOwnName q table u := by
    intro t u table htu
    obtain ⟨hname, hown, -⟩ := NamedType.same_iff.mp htu
    rw [enterOwnName, enterOwnName, Protocol.fullNameOf_eq_of_same hspace htu, hname, hown]
  rw [referencesOf, referencesOf, foldl_eq_of_sameList h hnames, foldl_eq_of_sameList h hownNames]

/-- The resolved protocol with another text for its canonical document. -/
def Resolved.withText (r : Resolved) (text : String) : Resolved := { r with canonical := text }

/-- **Protocols that are the same are resolved in the same way**, but for their texts. -/
theorem Resolved.ofProtocol_eq_of_same (h : p.same q) (hp : p.HasDistinctKeys) :
    Resolved.ofProtocol p = (Resolved.ofProtocol q).withText p.canonicalText := by
  obtain ⟨hname, hspace, hdoc, -, htypes, hmessages, hlookup⟩ := Protocol.same_iff.mp h
  have hresolve := Protocol.resolveName_eq_of_same hspace htypes
    (Table.find?_eq_of_same hlookup hp.lookup)
  rw [ofProtocol, ofProtocol, withText, hname, hspace, hdoc,
    ResolvedType.map_ofType_eq_of_same hspace htypes,
    ResolvedMessage.map_ofMessage_eq_of_same hresolve hmessages,
    Protocol.map_fullNameOf_eq_of_same hspace htypes, referencesOf_eq_of_same hspace htypes]

end Resolved

/-! ## The text in the code -/

namespace Target

variable {r : Resolved} {text : String}

theorem branchName_withText (s : Schema) : branchName (r.withText text) s = branchName r s := by
  cases s <;> rfl

mutual

/-- The mapping of schemas does not look at the text of the canonical document. -/
theorem mapSchema_withText (hint : String) :
    (s : Schema) → mapSchema (r.withText text) hint s = mapSchema r hint s
  | .primitive p => by rw [mapSchema, mapSchema]
  | .array items => by rw [mapSchema, mapSchema, mapSchema_withText _ items]
  | .map values => by rw [mapSchema, mapSchema, mapSchema_withText _ values]
  | .named name => by
    rw [mapSchema, mapSchema]
    rfl
  | .union branches => by
    rw [mapSchema, mapSchema, mapOptional?_withText hint branches,
      mapBranches_withText hint branches]

theorem mapOptional?_withText (hint : String) : (branches : List Schema) →
    mapOptional? (r.withText text) hint branches = mapOptional? r hint branches
  | [] => rfl
  | [a] => rfl
  | [a, b] => by
    rw [mapOptional?, mapOptional?, mapSchema_withText hint a, mapSchema_withText hint b]
  | _ :: _ :: _ :: _ => rfl

theorem mapBranches_withText (hint : String) : (branches : List Schema) →
    mapBranches (r.withText text) hint branches = mapBranches r hint branches
  | [] => by rw [mapBranches, mapBranches]
  | branch :: branches => by
    rw [mapBranches, mapBranches, mapBranches_withText hint branches, branchName_withText,
      mapSchema_withText _ branch]

end

theorem reaches_withText (goal : String) (depth : Nat) :
    (r.withText text).reaches goal depth = r.reaches goal depth := by
  induction depth with
  | zero => rfl
  | succ depth ih =>
    funext start visited
    rw [Resolved.reaches, Resolved.reaches, ih]
    rfl

theorem needsBox_withText (owner : String) (schema : Schema) :
    (r.withText text).needsBox owner schema = r.needsBox owner schema := by
  have hget : (r.withText text).getType? = r.getType? := rfl
  have htypes : (r.withText text).types = r.types := rfl
  simp only [Resolved.needsBox, hget, htypes, reaches_withText]

theorem mapField_withText (owner ownerName : String) (f : ResolvedField) :
    mapField (r.withText text) owner ownerName f = mapField r owner ownerName f := by
  simp only [mapField, needsBox_withText, mapSchema_withText]

theorem dataOf?_withText (t : ResolvedType) : dataOf? (r.withText text) t = dataOf? r t := by
  have hmember : memberOf (r.withText text) t = memberOf r t := by
    funext f
    simp only [memberOf, mapField_withText]
  simp only [dataOf?, hmember]

theorem methodOf_withText (m : ResolvedMessage) :
    methodOf (r.withText text) m = methodOf r m := by
  simp only [methodOf, mapSchema_withText]

theorem serviceOf?_withText : serviceOf? (r.withText text) = serviceOf? r := by
  have hmethods : methodOf (r.withText text) = methodOf r := funext methodOf_withText
  simp only [serviceOf?, hmethods]
  rfl

/-- The definitions of a module are those of any other text. -/
theorem Module.ofResolved_withText :
    Module.ofResolved (r.withText text) = { Module.ofResolved r with canonical := text } := by
  have hdata : dataOf? (r.withText text) = dataOf? r := funext dataOf?_withText
  simp only [Module.ofResolved, hdata, serviceOf?_withText]
  rfl

/-! ## The literal in the code -/

/-- Empty lines at the end are taken away from what stands behind the last other character. -/
theorem dropGaps_append {cs ds : List Char} (h : ∃ c ∈ cs, c ≠ '\n') :
    dropGaps (cs ++ ds) = dropGaps cs ++ ds := by
  fun_induction dropGaps cs with
  | case1 cs ih =>
    have hrest : ∃ c ∈ '\n' :: cs, c ≠ '\n' := by simpa using h
    rw [← ih hrest]
    rfl
  | case2 cs hcs =>
    -- Two line feeds in front would both stand in `cs`, as there is another character in it.
    rw [dropGaps]
    intro es hes
    match cs with
    | [] => simp at h
    | [c] => simp_all
    | c :: d :: cs => simp_all

theorem withoutLastGap_append {front back : String} (h : ∃ c ∈ back.toList, c ≠ '\n') :
    withoutLastGap (front ++ back) = front ++ withoutLastGap back := by
  have hback : ∃ c ∈ back.toList.reverse, c ≠ '\n' := by simpa using h
  rw [withoutLastGap, withoutLastGap, String.toList_append, List.reverse_append,
    dropGaps_append hback, List.reverse_append, List.reverse_reverse, String.ofList_append,
    String.ofList_toList]

theorem replicate_append_inj {m n : Nat} {cs ds : List Char}
    (h : List.replicate m '#' ++ '"' :: cs = List.replicate n '#' ++ '"' :: ds) :
    m = n ∧ cs = ds := by
  induction m generalizing n with
  | zero =>
    cases n with
    | zero => simpa using h
    | succ n => simp [List.replicate_succ] at h
  | succ m ih =>
    cases n with
    | zero => simp [List.replicate_succ] at h
    | succ n =>
      simp only [List.replicate_succ, List.cons_append, List.cons.injEq, true_and] at h
      obtain ⟨rfl, rfl⟩ := ih h
      exact ⟨rfl, rfl⟩

/-- A raw literal shows its text, as its number signs show where the text begins. -/
theorem rawLiteral_inj {m n : Nat} {s t : String} (h : rawLiteral m s = rawLiteral n t) :
    s = t := by
  have hchars := congrArg String.toList h
  simp only [rawLiteral, String.toList_append, String.toList_ofList, List.append_assoc] at hchars
  obtain ⟨rfl, hbody⟩ := replicate_append_inj (by simpa using hchars)
  exact String.toList_inj.mp (by simpa [← List.append_assoc] using hbody)

/-- The literal that the text of the canonical document becomes. -/
def literalOf (text : String) : String :=
  rawLiteral (rawHashes text) (String.ofList (Text.trimEnd text.toList))

/-- The lines of a module from the end of the literal on. -/
def Module.linesBehind (m : Module) : String :=
  lines [line 0 ";", gap,
    lines (m.enums.map EnumDef.text),
    lines (m.data.map DataDef.text),
    lines (m.unions.map UnionDef.documentedText),
    m.service.elim "" Service.text]

theorem line_zero (text : String) : line 0 text = text ++ "\n" := by simp [line]

/-- The lines of a module before the constant that holds the literal. -/
def Module.linesBefore (m : Module) : String :=
  lines [m.headerText,
    line 0 "/// Protocol name.",
    line 0 ("pub const PROTOCOL_NAME: &str = " ++ plainLiteral m.protocol ++ ";"), gap,
    m.space.elim "" fun space => lines [line 0 "/// Protocol namespace.",
      line 0 ("pub const PROTOCOL_NAMESPACE: &str = " ++ plainLiteral space ++ ";"), gap],
    line 0 "/// Canonical schema text this file was generated from."]

/-- The text in front of the literal on its line. -/
def literalOpening : String := "pub const PROTOCOL: &str = "

/-- The constants of a module end with the literal. -/
theorem Module.headerText_append_constantsText (m : Module) :
    m.headerText ++ m.constantsText = m.linesBefore ++ (literalOpening ++ (literalOf m.canonical ++
      lines [line 0 ";", gap])) := by
  obtain ⟨_, space, _, _, _, _, _⟩ := m
  cases space <;> simp only [Module.constantsText, Module.linesBefore, literalOpening, literalOf,
    lines, line_zero, String.join_cons, String.join_nil, String.append_assoc, String.append_empty,
    Option.elim]

/-- **The code has the text of the canonical document in one raw literal and nowhere else.** -/
theorem code_withText_eq (r : Resolved) (text : String) : (r.withText text).code =
    (Module.ofResolved r).linesBefore ++ (literalOpening ++ (literalOf text ++
      withoutLastGap (Module.ofResolved r).linesBehind)) := by
  have hback : ∃ c ∈ (Module.ofResolved r).linesBehind.toList, c ≠ '\n' := by
    refine ⟨';', ?_, by decide⟩
    simp [Module.linesBehind, lines, line_zero, String.join_cons]
  have hbefore : Module.linesBefore { Module.ofResolved r with canonical := text } =
      (Module.ofResolved r).linesBefore := rfl
  have hconstants := Module.headerText_append_constantsText
    { Module.ofResolved r with canonical := text }
  rw [hbefore] at hconstants
  have htext : (r.withText text).code = withoutLastGap (((Module.ofResolved r).linesBefore ++
      (literalOpening ++ literalOf text)) ++ (Module.ofResolved r).linesBehind) := by
    rw [Resolved.code, Module.ofResolved_withText, Module.text, lines, String.join_cons,
      String.join_cons, ← String.append_assoc, hconstants]
    cases hservice : (Module.ofResolved r).service <;>
      simp only [Module.linesBehind, hservice, lines, String.join_cons, String.append_assoc,
        String.join_nil, String.append_empty, Option.elim]
  rw [htext, withoutLastGap_append hback]
  simp only [String.append_assoc]

/-- Codes that differ in their texts only are equal if the literals are. -/
theorem code_withText_eq_iff {r : Resolved} {s t : String} :
    (r.withText s).code = (r.withText t).code ↔ literalOf s = literalOf t := by
  rw [code_withText_eq, code_withText_eq]
  simp

end Target

/-! ## Protocols that are the same -/

namespace Protocol

open Target

variable {p q : Protocol}

theorem exists_pretty_object (level : Nat) (members : Members) :
    ∃ cs, Json.pretty level (.object members) = cs ++ ['}'] := by
  cases members with
  | nil => exact ⟨['{'], rfl⟩
  | cons m ms => exact ⟨_, rfl⟩

/-- The literal in the code holds the canonical text without the line feed at its end. -/
theorem literalOf_canonicalText (p : Protocol) : literalOf p.canonicalText =
    rawLiteral (rawHashes p.canonicalText) p.toJson.toPrettyText := by
  obtain ⟨cs, hcs⟩ : ∃ cs, p.toJson.toPrettyText.toList = cs ++ ['}'] := by
    rw [Json.toPrettyText, String.toList_ofList]
    exact exists_pretty_object 0 _
  have htrim : Text.trimEnd (cs ++ ['}'] ++ ['\n']) = cs ++ ['}'] := by
    simp [Text.trimEnd, Text.isBlank]
  have htext : p.canonicalText.toList = cs ++ ['}'] ++ ['\n'] := by
    rw [canonicalText, String.toList_append, hcs]
    rfl
  rw [literalOf, htext, htrim, ← hcs, String.ofList_toList]

theorem canonicalText_eq_iff :
    p.canonicalText = q.canonicalText ↔ p.toJson.toPrettyText = q.toJson.toPrettyText := by
  simp [canonicalText]

/-- Protocols that are the same have one code exactly if they have one canonical text. -/
theorem code_eq_iff_of_same (h : p.same q) (hp : p.HasDistinctKeys) :
    (Resolved.ofProtocol p).code = (Resolved.ofProtocol q).code ↔
      p.canonicalText = q.canonicalText := by
  have hcode : (Resolved.ofProtocol p).code =
      ((Resolved.ofProtocol q).withText p.canonicalText).code :=
    congrArg Resolved.code (Resolved.ofProtocol_eq_of_same h hp)
  have hother : (Resolved.ofProtocol q).code =
      ((Resolved.ofProtocol q).withText q.canonicalText).code := rfl
  rw [hcode, hother, code_withText_eq_iff]
  refine ⟨fun hliteral => ?_, fun htext => by rw [htext]⟩
  rw [literalOf_canonicalText, literalOf_canonicalText] at hliteral
  exact canonicalText_eq_iff.mpr (rawLiteral_inj hliteral)

/-- **Protocols that are the same have one canonical text and one code exactly if their documents
have one layout**: the keys of all objects in one order and the numbers with equal signs. -/
theorem texts_eq_iff_of_same (h : p.same q) (hp : p.HasDistinctKeys) :
    (p.canonicalText = q.canonicalText ↔ p.toJson.layout = q.toJson.layout) ∧
      ((Resolved.ofProtocol p).code = (Resolved.ofProtocol q).code ↔
        p.toJson.layout = q.toJson.layout) := by
  have htext : p.canonicalText = q.canonicalText ↔ p.toJson.layout = q.toJson.layout := by
    rw [canonicalText_eq_iff, Json.toPrettyText_eq_iff (same_toJson h hp) hp.toJson]
  exact ⟨htext, (code_eq_iff_of_same h hp).trans htext⟩

/-- A protocol with two custom properties. -/
def abProtocol : Protocol :=
  { empty "P" none with properties := [("a", .number (.natural 1)), ("b", .number (.natural 2))] }

/-- The same protocol with its properties in the other order. -/
def baProtocol : Protocol :=
  { empty "P" none with properties := [("b", .number (.natural 2)), ("a", .number (.natural 1))] }

/-- The order of properties makes no difference to the protocol, but it does to its canonical
text and to its code. -/
theorem abProtocol_ne_baProtocol : abProtocol.same baProtocol ∧ abProtocol.HasDistinctKeys ∧
    abProtocol.canonicalText ≠ baProtocol.canonicalText ∧
    (Resolved.ofProtocol abProtocol).code ≠ (Resolved.ofProtocol baProtocol).code := by
  have hsame : abProtocol.same baProtocol := by decide
  have hkeys : abProtocol.HasDistinctKeys :=
    ⟨⟨by simp [abProtocol, Members.keys], nofun, nofun⟩, List.nodup_nil⟩
  have hlayout : abProtocol.toJson.layout ≠ baProtocol.toJson.layout := by decide
  have htexts := texts_eq_iff_of_same hsame hkeys
  exact ⟨hsame, hkeys, htexts.1.not.mpr hlayout, htexts.2.not.mpr hlayout⟩

end Protocol

end IdlCompiler
