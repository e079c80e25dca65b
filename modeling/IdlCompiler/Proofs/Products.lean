/-
# What sources yield

A source yields code for one file below the output directory.  The code starts with comments
and with a word that neither an interface definition nor a canonical document starts with, so
that it yields nothing itself.

Main statement: `productOf?_eq_none_of_isGenerated`.
-/
import IdlCompiler.Build.Run
import IdlCompiler.Proofs.GeneratedText
import IdlCompiler.Proofs.Units

namespace IdlCompiler

/-! ## How generated code starts -/

namespace Target

/-- What the second line of the code is about. -/
def Module.title (m : Module) : String := m.space.elim "" (· ++ ".") ++ m.protocol

/-- The lines that a module starts with, up to the first word of its code. -/
def opening (title : String) : String :=
  "// Generated by ironproto. Do not edit.\n// Protocol: " ++ title ++
    "\n\n/// Protocol name.\npub "

theorem Module.headerText_eq (m : Module) : m.headerText =
    "// Generated by ironproto. Do not edit.\n// Protocol: " ++ m.title ++ "\n\n" := by
  obtain ⟨protocol, space, _, _, _, _, _⟩ := m
  cases space <;> simp [headerText, title, lines, line_zero, gap, toString, ← String.toList_inj]

theorem Module.exists_text_eq (m : Module) : ∃ rest, m.text = opening m.title ++ rest := by
  obtain ⟨constants, hconstants⟩ : ∃ ls, m.constantsText = lines (line 0 "/// Protocol name." ::
      line 0 ("pub const PROTOCOL_NAME: &str = " ++ plainLiteral m.protocol ++ ";") :: ls) :=
    ⟨_, by rw [constantsText]⟩
  obtain ⟨definitions, htext⟩ : ∃ ls,
      m.text = withoutLastGap (lines (m.headerText :: m.constantsText :: ls)) :=
    ⟨_, by rw [text]⟩
  let back := "const PROTOCOL_NAME: &str = " ++ plainLiteral m.protocol ++ ";\n" ++
    lines constants ++ lines definitions
  have hback : ∃ c ∈ back.toList, c ≠ '\n' := ⟨'c', by simp [back], by decide⟩
  have hlines : lines (m.headerText :: m.constantsText :: definitions) =
      opening m.title ++ back := by
    rw [headerText_eq, hconstants]
    unfold back opening lines
    simp only [line_zero, String.join_cons, ← String.toList_inj, String.toList_append,
      List.append_assoc]
    simp only [String.reduceToList, List.cons_append, List.nil_append]
  exact ⟨withoutLastGap back, by rw [htext, hlines, withoutLastGap_append hback]⟩

end Target

/-- A line ends where its separator is. -/
theorem Text.cut_append_of_notMem {sep : Char} {line rest : List Char} (h : sep ∉ line) :
    cut (· ≠ sep) (line ++ sep :: rest) = (line, sep :: rest) := by
  have hall : ∀ c ∈ line, decide (c ≠ sep) := fun c hc => decide_eq_true fun heq => h (heq ▸ hc)
  rw [cut, List.takeWhile_append_of_pos hall, List.dropWhile_append_of_pos hall]
  simp

/-! ## Generated code as a source -/

namespace Idl

variable {rounds : Nat} {position : Position} {doc : Option String} {cs rest : List Char}
  {tokens : List Token}

/-- Characters lead to tokens, wherever they stand and whatever stands before them. -/
def Gives (cs : List Char) (tokens : List Token) : Prop :=
  ∃ rounds position doc, tokensFrom rounds position doc cs = .ok tokens

theorem Gives.of_comment {body : List Char} (hbody : '\n' ∉ body)
    (h : Gives ('/' :: '/' :: (body ++ '\n' :: rest)) tokens) : Gives ('\n' :: rest) tokens := by
  obtain ⟨rounds, position, doc, h⟩ := h
  cases rounds with
  | zero => simp [tokensFrom] at h
  | succ rounds =>
    have hscan : scan '/' ('/' :: (body ++ '\n' :: rest)) =
        .ok ⟨.comment none, '/' :: '/' :: body, '\n' :: rest⟩ := by
      rw [scan, if_neg (by decide), scanToken, if_neg (by decide), if_neg (by decide)]
      simp only [Text.cut_append_of_notMem hbody]
    rw [tokensFrom, hscan] at h
    exact ⟨_, _, _, h⟩

theorem Gives.of_blank {c : Char} (hc : isSkipped c) (h : Gives (c :: cs) tokens) :
    Gives (cs.dropWhile isSkipped) tokens := by
  obtain ⟨rounds, position, doc, h⟩ := h
  cases rounds with
  | zero => simp [tokensFrom] at h
  | succ rounds =>
    rw [tokensFrom, scan, if_pos hc] at h
    exact ⟨_, _, _, h⟩

theorem Gives.exists_eq_cons {c : Char} {s : Scan} {kind : TokenKind} (hscan : scan c cs = .ok s)
    (hpiece : s.piece = .token kind) (h : Gives (c :: cs) tokens) :
    ∃ token more, tokens = token :: more ∧ token.kind = kind := by
  obtain ⟨rounds, position, doc, h⟩ := h
  cases rounds with
  | zero => simp [tokensFrom] at h
  | succ rounds =>
    simp only [tokensFrom, hscan, hpiece] at h
    obtain ⟨more, -, heq⟩ := Except.bind_eq_ok_iff.mp h
    exact ⟨_, more, (Except.ok.inj heq).symm, rfl⟩

/-- No interface definition starts with another word than its keyword. -/
theorem not_isUnit_of_word {rules : Rules} {p : Protocol} {token : Token} {more : List Token}
    {word : String} (hkind : token.kind = .word word) (hword : word ≠ "protocol") :
    ¬ IsUnit rules (token :: more) p := by
  intro h
  generalize hall : token :: more = all at h
  cases h with
  | unit notes _ keyword =>
    cases notes with
    | nil =>
      obtain ⟨rfl, -⟩ := List.cons.inj hall
      exact hword (TokenKind.word.inj (hkind.symm.trans keyword))
    | cons note _ =>
      cases note with
      | note sign =>
        obtain ⟨rfl, -⟩ := List.cons.inj hall
        rw [hkind] at sign
        simp at sign

end Idl

namespace Protocol

open Target (opening)

variable {title rest : String}

/-- The opening of a module is three comments and a word. -/
theorem toList_opening_append (title rest : String) : (opening title ++ rest).toList =
    '/' :: '/' :: (" Generated by ironproto. Do not edit.".toList ++ '\n' ::
      '/' :: '/' :: ((" Protocol: ".toList ++ title.toList) ++ '\n' ::
        '\n' :: '/' :: '/' :: ("/ Protocol name.".toList ++ '\n' ::
          'p' :: 'u' :: 'b' :: ' ' :: rest.toList))) := by
  unfold opening
  simp only [String.toList_append, String.reduceToList, List.append_assoc, List.cons_append,
    List.nil_append]

theorem ofText_opening_append_ne_ok (p : Protocol) : ofText (opening title ++ rest) ≠ .ok p := by
  obtain ⟨e, he⟩ : ∃ e, Json.read (opening title ++ rest) = .error e := by
    rw [Json.read, Json.readWhole, toList_opening_append]
    exact ⟨_, rfl⟩
  rw [ofText, ofUncheckedText, he]
  simp [bind, Except.bind]

theorem ofIdl_opening_append_ne_ok (htitle : '\n' ∉ title.toList) (p : Protocol) :
    ofIdl (opening title ++ rest) ≠ .ok p := by
  intro h
  obtain ⟨tokens, htokens, hunit, -⟩ := exists_tokens_of_ofIdl h
  have hgives : Idl.Gives (opening title ++ rest).toList tokens := ⟨_, _, _, htokens⟩
  rw [toList_opening_append] at hgives
  have hfirst := (hgives.of_comment (by decide)).of_blank (by decide)
  have hsecond := (Idl.Gives.of_comment (by simp [htitle]) hfirst).of_blank (by decide)
  have hthird := (Idl.Gives.of_comment (by decide) hsecond).of_blank (by decide)
  obtain ⟨token, more, rfl, hkind⟩ : ∃ token more, tokens = token :: more ∧
      token.kind = .word "pub" := hthird.exists_eq_cons rfl rfl
  exact Idl.not_isUnit_of_word hkind (by decide) hunit

end Protocol

/-! ## Products -/

/-- A character of a text is a separator or in one of the parts between the separators. -/
theorem Text.eq_or_exists_of_mem (sep : Char) {c : Char} {cs : List Char} (h : c ∈ cs) :
    c = sep ∨ ∃ part ∈ splitOn sep cs, c ∈ part := by
  induction cs with
  | nil => simp at h
  | cons d cs ih =>
    rw [splitOn]
    by_cases hd : d = sep
    · rw [if_pos hd]
      rcases List.mem_cons.mp h with rfl | h
      · exact .inl hd
      · obtain hsep | ⟨part, hpart, hc⟩ := ih h
        · exact .inl hsep
        · exact .inr ⟨part, List.mem_cons_of_mem _ hpart, hc⟩
    · rw [if_neg hd]
      cases hs : splitOn sep cs with
      | nil => exact absurd hs (splitOn_ne_nil _ _)
      | cons first parts =>
        rw [hs] at ih
        rcases List.mem_cons.mp h with rfl | h
        · exact .inr ⟨_, List.mem_cons_self, List.mem_cons_self⟩
        · obtain hsep | ⟨part, hpart, hc⟩ := ih h
          · exact .inl hsep
          · rcases List.mem_cons.mp hpart with rfl | hpart
            · exact .inr ⟨_, List.mem_cons_self, List.mem_cons_of_mem _ hc⟩
            · exact .inr ⟨part, List.mem_cons_of_mem _ hpart, hc⟩

theorem Name.isPart_of_mem {name : String} (h : isIdentifier name) {c : Char}
    (hc : c ∈ name.toList) : isPart c :=
  ((isIdentifierChars_iff _).mp h).2 c hc

theorem Name.isPart_or_eq_dot_of_mem {space : String} (h : isDotted space) {c : Char}
    (hc : c ∈ space.toList) : isPart c ∨ c = '.' := by
  obtain hsep | ⟨part, hpart, hmem⟩ := Text.eq_or_exists_of_mem '.' hc
  · exact .inr hsep
  · have hpart' := List.all_eq_true.mp h _ (List.mem_map_of_mem hpart)
    exact .inl (isPart_of_mem hpart' (by simpa using hmem))

theorem Protocol.wellFormed_of_ofText {text : String} {p : Protocol} (h : ofText text = .ok p) :
    p.WellFormed := by
  obtain ⟨q, -, hchecked⟩ := Except.bind_eq_ok_iff.mp h
  obtain ⟨hvalid, rfl⟩ := checked_eq_ok_iff.mp hchecked
  exact validate_eq_ok_iff.mp hvalid

/-- A text is the code of a canonical document. -/
def IsGenerated (code : String) : Prop := ∃ document parts, deliverable document = .ok (parts, code)

/-- What the second line of the code for a protocol is about. -/
def Protocol.title (p : Protocol) : String := p.space.elim "" (· ++ ".") ++ p.name

/-- The code of a document starts with the title of its protocol. -/
theorem exists_code_eq_of_deliverable {document code : String} {parts : List String}
    (h : deliverable document = .ok (parts, code)) : ∃ p rest,
      Protocol.ofText document = .ok p ∧ code = Target.opening p.title ++ rest := by
  rw [deliverable] at h
  cases hread : Protocol.ofText document with
  | error e => simp [hread] at h
  | ok p =>
    simp only [hread] at h
    cases hparts : (Resolved.ofProtocol p).outputParts with
    | error e => simp [hparts] at h
    | ok parts' =>
      simp only [hparts, Except.ok.injEq, Prod.mk.injEq] at h
      obtain ⟨rest, hrest⟩ := (Target.Module.ofResolved (Resolved.ofProtocol p)).exists_text_eq
      exact ⟨p, rest, rfl, h.2.symm.trans hrest⟩

theorem Protocol.WellFormed.isPart_or_eq_dot_of_mem_title {p : Protocol} (hp : p.WellFormed)
    {c : Char} (hc : c ∈ p.title.toList) : Name.isPart c ∨ c = '.' := by
  rw [Protocol.title, String.toList_append, List.mem_append] at hc
  rcases hc with hc | hc
  · cases hspace : p.space with
    | none => simp [hspace] at hc
    | some space =>
      have hdotted := hp.isDotted space (by simp [hspace])
      simp only [hspace, Option.elim, String.toList_append, List.mem_append] at hc
      rcases hc with hc | hc
      · exact Name.isPart_or_eq_dot_of_mem hdotted hc
      · exact .inr (by simpa using hc)
  · exact .inl (Name.isPart_of_mem hp.isIdentifier hc)

theorem Protocol.WellFormed.notMem_title {p : Protocol} (hp : p.WellFormed) :
    '\n' ∉ p.title.toList :=
  fun hmem => absurd (hp.isPart_or_eq_dot_of_mem_title hmem) (by decide)

theorem IsGenerated.exists_opening {code : String} (h : IsGenerated code) :
    ∃ title rest, '\n' ∉ title.toList ∧ code = Target.opening title ++ rest := by
  obtain ⟨document, parts, h⟩ := h
  obtain ⟨p, rest, hread, rfl⟩ := exists_code_eq_of_deliverable h
  exact ⟨p.title, rest, (Protocol.wellFormed_of_ofText hread).notMem_title, rfl⟩

/-- Code tells the title of its protocol. -/
theorem title_eq_of_deliverable {document document' code : String} {parts parts' : List String}
    {p p' : Protocol} (hp : Protocol.ofText document = .ok p)
    (hp' : Protocol.ofText document' = .ok p') (h : deliverable document = .ok (parts, code))
    (h' : deliverable document' = .ok (parts', code)) : p.title = p'.title := by
  obtain ⟨q, rest, hq, hcode⟩ := exists_code_eq_of_deliverable h
  obtain rfl := Except.ok.inj (hp.symm.trans hq)
  obtain ⟨q', rest', hq', hcode'⟩ := exists_code_eq_of_deliverable h'
  obtain rfl := Except.ok.inj (hp'.symm.trans hq')
  have hlines := congrArg String.toList (hcode.symm.trans hcode')
  simp only [Protocol.toList_opening_append, List.cons.injEq, true_and, List.append_assoc,
    List.append_cancel_left_eq] at hlines
  have hcut := congrArg (Text.cut (· ≠ '\n')) hlines
  rw [Text.cut_append_of_notMem (Protocol.wellFormed_of_ofText hp).notMem_title,
    Text.cut_append_of_notMem (Protocol.wellFormed_of_ofText hp').notMem_title] at hcut
  exact String.toList_inj.mp (congrArg Prod.fst hcut)

namespace Build

/-- The canonical document of a source with a text. -/
def documentOf (stage : Stage) (text : String) : Reading String :=
  match stage with
  | .interfaceDefinition => (Protocol.ofIdl text).map Protocol.canonicalText
  | .canonicalSchema => .ok text

/-- What a source yields: the path of a file, and the code in it. -/
structure Product where
  path : String
  code : String

/-- What a source with a text yields below an output directory. -/
def productOf? (output : String) (stage : Stage) (text : String) : Option Product :=
  match documentOf stage text with
  | .error _ => none
  | .ok document =>
    match deliverable document with
    | .error _ => none
    | .ok (parts, code) => some ⟨Path.joinAll output parts, code⟩

/-- What a source of a tree yields below an output directory. -/
def product? (t : FileTree) (output : String) (file : Candidate) : Option Product :=
  match t.readText file.path with
  | .error _ => none
  | .ok text => productOf? output (Stage.ofPath file.relative) text

variable {output : String} {stage : Stage} {text : String}

theorem productOf?_eq_some_iff {p : Product} : productOf? output stage text = some p ↔
    ∃ document parts, documentOf stage text = .ok document ∧
      deliverable document = .ok (parts, p.code) ∧ p.path = Path.joinAll output parts := by
  rw [productOf?]
  cases documentOf stage text with
  | error e => simp
  | ok document =>
    cases hmade : deliverable document with
    | error e => simp [hmade]
    | ok made =>
      obtain ⟨path, code⟩ := p
      obtain ⟨parts, code'⟩ := made
      simp [hmade, eq_comm, and_comm]

theorem product?_eq_some_iff {t : FileTree} {file : Candidate} {p : Product} :
    product? t output file = some p ↔ ∃ text, t.readText file.path = .ok text ∧
      productOf? output (Stage.ofPath file.relative) text = some p := by
  rw [product?]
  cases t.readText file.path <;> simp

theorem isGenerated_of_product? {t : FileTree} {file : Candidate} {p : Product}
    (h : product? t output file = some p) : IsGenerated p.code := by
  obtain ⟨text, -, h⟩ := product?_eq_some_iff.mp h
  obtain ⟨document, parts, -, hmade, -⟩ := productOf?_eq_some_iff.mp h
  exact ⟨document, parts, hmade⟩

/-- **Generated code yields nothing.** -/
theorem productOf?_eq_none_of_isGenerated (h : IsGenerated text) :
    productOf? output stage text = none := by
  obtain ⟨title, rest, htitle, rfl⟩ := h.exists_opening
  rw [Option.eq_none_iff_forall_ne_some]
  intro p hp
  obtain ⟨document, parts, hdocument, hmade, -⟩ := productOf?_eq_some_iff.mp hp
  cases stage with
  | interfaceDefinition =>
    rw [documentOf] at hdocument
    cases hread : Protocol.ofIdl (Target.opening title ++ rest) with
    | error e => simp [hread, Except.map] at hdocument
    | ok p => exact Protocol.ofIdl_opening_append_ne_ok htitle p hread
  | canonicalSchema =>
    obtain rfl := Except.ok.inj hdocument
    rw [deliverable] at hmade
    cases hread : Protocol.ofText (Target.opening title ++ rest) with
    | error e => simp [hread] at hmade
    | ok p => exact Protocol.ofText_opening_append_ne_ok p hread

end Build

end IdlCompiler
