/-
# JSON texts in interface definitions

Defaults and arguments of annotations are JSON.  A text that is JSON by itself is cut into tokens
by another lexer there, and read by another reader; it stands for the same value,
`parseValue_of_read`.

Each step of the reader of JSON agrees with a phrase of the grammar, `Agrees`: what the step takes
is cut up into tokens, `Spells`, and all tokens of these kinds are a phrase for the result.  The
two limits of nesting fit: a value in which 127 brackets may be open is a phrase that nests at
most 128 levels deep, as the innermost value counts as a level as well.
-/
import IdlCompiler.Proofs.Literals
import IdlCompiler.Proofs.Tokenization
import IdlCompiler.Proofs.Units

namespace IdlCompiler.Idl

open Json (Step isGap skipGap)

/-! ## Texts and kinds of tokens -/

/-- A text is cut up into tokens of these kinds, up to a rest. -/
def Spells (text : List Char) (kinds : List TokenKind) (rest : List Char) : Prop :=
  ∃ cuts, CutsUp text cuts rest ∧ cuts.filterMap (·.piece.kind?) = kinds

/-- All tokens of these kinds are a phrase that stands for `a`. -/
def AllMean {α : Type} (P : Phrases α) (kinds : List TokenKind) (a : α) : Prop :=
  ∀ ts : List Token, ts.map (·.kind) = kinds → P ts a

variable {text middle rest cs : List Char} {kinds kinds' : List TokenKind} {kind : TokenKind}

theorem Spells.refl (text : List Char) : Spells text [] text := ⟨[], .nil _, rfl⟩

theorem Spells.append (h : Spells text kinds middle) (h' : Spells middle kinds' rest) :
    Spells text (kinds ++ kinds') rest := by
  obtain ⟨cuts, hcuts, rfl⟩ := h
  obtain ⟨cuts', hcuts', rfl⟩ := h'
  exact ⟨cuts ++ cuts', hcuts.append hcuts', List.filterMap_append⟩

theorem spells_of_isLexeme (h : IsLexeme kind cs)
    (hrest : ∀ c ∈ rest.head?, ¬ (Piece.token kind).mayGoOnWith c) :
    Spells (cs ++ rest) [kind] rest :=
  ⟨_, .cons ((IsPiece.token h).isLongest hrest) (.nil _), rfl⟩

theorem spells_mark (mark : Mark) : Spells (mark.char :: rest) [.mark mark] rest :=
  spells_of_isLexeme (.mark mark) (by simp [Piece.mayGoOnWith])

theorem spells_skipGap (h : ∀ c ∈ (skipGap cs).head?, ¬ isSkipped c) :
    Spells cs [] (skipGap cs) := by
  have hcs : cs.takeWhile isGap ++ skipGap cs = cs := List.takeWhile_append_dropWhile
  cases hgap : cs.takeWhile isGap with
  | nil =>
    rw [hgap] at hcs
    rw [← List.nil_append (skipGap cs), hcs]
    exact .refl _
  | cons c gap =>
    have hskipped : ∀ d ∈ c :: gap, isSkipped d := by
      intro d hd
      have hd : isGap d := List.all_eq_true.1 List.all_takeWhile d (hgap ▸ hd)
      simp only [isGap, Bool.or_eq_true, decide_eq_true_eq] at hd
      simp only [isSkipped, Bool.or_eq_true, decide_eq_true_eq]
      tauto
    rw [hgap] at hcs
    have hcuts :=
      CutsUp.cons ((IsPiece.blanks (List.cons_ne_nil _ _) hskipped).isLongest h) (.nil _)
    dsimp only at hcuts
    rw [hcs] at hcuts
    exact ⟨_, hcuts, rfl⟩

theorem not_isSkipped_char (mark : Mark) : ¬ isSkipped mark.char := by
  cases mark <;> decide

theorem Spells.behindGap (h : Spells (skipGap cs) kinds rest)
    (hstart : ∀ c ∈ (skipGap cs).head?, ¬ isSkipped c) : Spells cs kinds rest :=
  (spells_skipGap hstart).append h

theorem spells_skipGap_mark (mark : Mark) (h : skipGap cs = mark.char :: rest) :
    Spells cs [.mark mark] rest := by
  refine Spells.behindGap ?_ (by simp [h, not_isSkipped_char])
  rw [h]
  exact spells_mark mark

/-! ## What stands behind a value -/

/-- The characters that may stand behind a value in a JSON text. -/
def enders : List Char := [' ', '\n', '\t', '\r', ',', ']', '}']

/-- The text behind a value in a JSON text: nothing, a gap, a comma or a closing bracket. -/
def EndsValue (rest : List Char) : Prop := ∀ c ∈ rest.head?, c ∈ enders

theorem mem_enders_of_isGap {c : Char} (h : isGap c) : c ∈ enders := by
  simp only [isGap, Bool.or_eq_true, decide_eq_true_eq] at h
  simp only [enders, List.mem_cons]
  tauto

theorem endsValue_of_skipGap (h : EndsValue (skipGap cs)) : EndsValue cs := by
  intro c hc
  obtain ⟨more, rfl⟩ := List.head?_eq_some_iff.1 hc
  by_cases hgap : isGap c
  · exact mem_enders_of_isGap hgap
  · exact h c (by rw [Json.skipGap_cons hgap]; rfl)

theorem EndsValue.not_mayGoOnWith_word (h : EndsValue rest) (word : String) :
    ∀ c ∈ rest.head?, ¬ (Piece.token (.word word)).mayGoOnWith c := by
  have hnone : enders.all fun c => !(Name.isPart c || c = '.') := by decide
  intro c hc
  simpa [Piece.mayGoOnWith] using List.all_eq_true.1 hnone c (h c hc)

theorem EndsValue.not_mayGoOnWith_numberLiteral (h : EndsValue rest) (literal : String) :
    ∀ c ∈ rest.head?, ¬ (Piece.token (.numberLiteral literal)).mayGoOnWith c := by
  have hnone : enders.all fun c => !(c.isDigit || c ∈ ['.', 'e', 'E', '+', '-']) := by decide
  intro c hc
  simpa [Piece.mayGoOnWith] using List.all_eq_true.1 hnone c (h c hc)

/-! ## Scalars -/

/-- What a step takes behind a gap and in front of the end of a value is cut up into tokens that
are a phrase for its result. -/
def Agrees {α : Type} (step : Step α) (P : Phrases α) : Prop :=
  ∀ cs a rest, step (skipGap cs) = .ok (a, rest) → EndsValue rest →
    ∃ kinds, Spells cs kinds rest ∧ AllMean P kinds a

theorem Agrees.of_start {α : Type} {step : Step α} {P : Phrases α}
    (hstart : ∀ cs a rest, step cs = .ok (a, rest) → ∀ c ∈ cs.head?, ¬ isSkipped c)
    (h : ∀ cs a rest, step cs = .ok (a, rest) → EndsValue rest →
      ∃ kinds, Spells cs kinds rest ∧ AllMean P kinds a) : Agrees step P := by
  intro cs a rest hstep hrest
  obtain ⟨kinds, hspells, hmean⟩ := h _ a rest hstep hrest
  exact ⟨kinds, hspells.behindGap (hstart _ a rest hstep), hmean⟩

theorem eq_append_of_readWord {word : List Char} (h : Json.readWord word cs = .ok rest) :
    cs = word ++ rest := by
  induction word generalizing cs with
  | nil => exact Except.ok.inj h
  | cons c word ih =>
    cases cs with
    | nil => cases h
    | cons d cs =>
      rw [Json.readWord] at h
      split at h
      · rename_i hc
        rw [hc, ih h]
        rfl
      · cases h

theorem exists_of_readWord {first : Char} {word : List Char} {P : Phrases Json} {v : Json}
    (hdotted : Name.isDotted (String.ofList (first :: word)))
    (hP : ∀ t : Token, t.kind = .word (String.ofList (first :: word)) → P [t] v)
    (h : Json.readWord word cs = .ok rest) (hrest : EndsValue rest) :
    ∃ kinds, Spells (first :: cs) kinds rest ∧ AllMean P kinds v := by
  obtain rfl := eq_append_of_readWord h
  refine ⟨_, spells_of_isLexeme (.word hdotted) (hrest.not_mayGoOnWith_word _), fun ts hts => ?_⟩
  obtain ⟨t, rfl, ht⟩ := List.map_eq_singleton_iff.1 hts
  exact hP t ht

theorem spells_of_readString {s : String} (h : Json.readString cs = .ok (s, rest)) :
    ∃ literal, Spells ('"' :: cs) [.stringLiteral literal] rest ∧
      Json.readStringText literal = .ok s := by
  obtain ⟨inside, rfl, hinside, hread⟩ := Json.exists_of_readString h
  have hspells : Spells ('"' :: (inside ++ ['"']) ++ rest) [_] rest :=
    spells_of_isLexeme (.stringLiteral hinside) (by simp [Piece.mayGoOnWith])
  exact ⟨_, by simpa using hspells, hread⟩

theorem not_isSkipped_of_readScalar {v : Json} (h : Json.readScalar cs = .ok (v, rest)) :
    ∀ c ∈ cs.head?, ¬ isSkipped c := by
  intro c hc hskipped
  obtain ⟨more, rfl⟩ := List.head?_eq_some_iff.1 hc
  simp only [isSkipped, Bool.or_eq_true, decide_eq_true_eq] at hskipped
  rcases hskipped with (((rfl | rfl) | rfl) | rfl) | rfl <;> cases h

theorem agrees_readScalar {P : Phrases Json} : Agrees Json.readScalar (ValueForm P) := by
  refine .of_start (fun cs v rest => not_isSkipped_of_readScalar) fun cs v rest h hrest => ?_
  unfold Json.readScalar at h
  split at h
  · cases h
  · obtain ⟨more, hword, heq⟩ := Except.bind_eq_ok_iff.1 h
    cases heq
    exact exists_of_readWord (by decide) (fun _ ht => .null ht) hword hrest
  · obtain ⟨more, hword, heq⟩ := Except.bind_eq_ok_iff.1 h
    cases heq
    exact exists_of_readWord (by decide) (fun _ ht => .yes ht) hword hrest
  · obtain ⟨more, hword, heq⟩ := Except.bind_eq_ok_iff.1 h
    cases heq
    exact exists_of_readWord (by decide) (fun _ ht => .no ht) hword hrest
  · obtain ⟨⟨s, more⟩, hstring, heq⟩ := Except.bind_eq_ok_iff.1 h
    cases heq
    obtain ⟨literal, hspells, hread⟩ := spells_of_readString hstring
    refine ⟨_, hspells, fun ts hts => ?_⟩
    obtain ⟨t, rfl, ht⟩ := List.map_eq_singleton_iff.1 hts
    exact .string ht hread
  · split at h
    · obtain ⟨⟨n, more⟩, hnumber, heq⟩ := Except.bind_eq_ok_iff.1 h
      cases heq
      obtain ⟨taken, htaken, hlexeme, hread⟩ := Json.exists_of_readNumber hnumber
      rw [htaken]
      refine ⟨_, spells_of_isLexeme hlexeme (hrest.not_mayGoOnWith_numberLiteral _),
        fun ts hts => ?_⟩
      obtain ⟨t, rfl, ht⟩ := List.map_eq_singleton_iff.1 hts
      exact .number ht hread
    · cases h

/-! ## Lists -/

section Lists

variable {α : Type} {step : Step α} {P : Phrases α} {close : Mark} {a : α} {as : List α}

/-- Phrases with commas between them, and a closing mark. -/
inductive Closed (close : Mark) (P : Phrases α) : Phrases (List α)
  | closed {ts : List Token} {c : Token} {as : List α} (items : Listed P ts as)
      (closes : c.kind = .mark close) : Closed close P (ts ++ [c]) as

/-- What stands behind the first phrase of a list up to its closing mark. -/
def GoesOn (close : Mark) (P : Phrases α) : Phrases (List α) :=
  fun us as => ∀ ts a, P ts a → Closed close P (ts ++ us) (a :: as)

theorem allMean_closed_nil : AllMean (Closed close P) [.mark close] [] := by
  intro ts hts
  obtain ⟨t, rfl, ht⟩ := List.map_eq_singleton_iff.1 hts
  exact .closed .nil ht

theorem allMean_goesOn_nil : AllMean (GoesOn close P) [.mark close] [] := by
  intro us hus ts a ha
  obtain ⟨u, rfl, hu⟩ := List.map_eq_singleton_iff.1 hus
  exact .closed (.one ha) hu

theorem allMean_closed_cons (ha : AllMean P kinds a) (has : AllMean (GoesOn close P) kinds' as) :
    AllMean (Closed close P) (kinds ++ kinds') (a :: as) := by
  intro ts hts
  obtain ⟨us, vs, rfl, hus, hvs⟩ := List.map_eq_append_iff.1 hts
  exact has vs hvs us a (ha us hus)

theorem allMean_goesOn_cons (ha : AllMean P kinds a) (has : AllMean (GoesOn close P) kinds' as) :
    AllMean (GoesOn close P) ([.mark .comma] ++ (kinds ++ kinds')) (a :: as) := by
  intro us hus ts b hb
  obtain ⟨comma, vs, rfl, hcomma, hvs⟩ := List.map_eq_cons_iff.1 hus
  have hclosed := allMean_closed_cons ha has vs hvs
  generalize a :: as = as' at hclosed
  cases hclosed with
  | closed hitems hcloses =>
    rw [← List.cons_append, ← List.append_assoc]
    exact .closed (.cons hb hcomma hitems) hcloses

/-- What a step reads behind the first item of a list is cut up into tokens that go on with the
list. -/
theorem Agrees.readsMore (close : Mark) (hclose : close.char ∈ enders) (h : Agrees step P)
    (hread : Json.ReadsMore step close.char cs as rest) :
    EndsValue cs ∧ ∃ kinds, Spells cs kinds rest ∧ AllMean (GoesOn close P) kinds as := by
  induction hread with
  | done closes =>
    exact ⟨endsValue_of_skipGap (by simpa [closes, EndsValue] using hclose), _,
      spells_skipGap_mark close closes, allMean_goesOn_nil⟩
  | more comma reads _ ih =>
    obtain ⟨hends, kinds', hspells', hmean'⟩ := ih
    obtain ⟨kinds, hspells, hmean⟩ := h _ _ _ reads hends
    exact ⟨endsValue_of_skipGap (by simp [comma, EndsValue, enders]), _,
      (spells_skipGap_mark .comma comma).append (hspells.append hspells'),
      allMean_goesOn_cons hmean hmean'⟩

theorem Agrees.readsList (close : Mark) (hclose : close.char ∈ enders) (h : Agrees step P)
    (hread : Json.ReadsList step close.char cs as rest) :
    ∃ kinds, Spells cs kinds rest ∧ AllMean (Closed close P) kinds as := by
  cases hread with
  | empty closes => exact ⟨_, spells_skipGap_mark close closes, allMean_closed_nil⟩
  | items reads on =>
    obtain ⟨hends, kinds', hspells', hmean'⟩ := h.readsMore close hclose on
    obtain ⟨kinds, hspells, hmean⟩ := h _ _ _ reads hends
    exact ⟨_, hspells.append hspells', allMean_closed_cons hmean hmean'⟩

end Lists

/-! ## Members and values -/

theorem Agrees.readMember {item : Step Json} {P : Phrases Json} (h : Agrees item P)
    (hgap : ∀ cs, item (skipGap cs) = item cs) :
    Agrees (Json.readMember item) (MemberForm P) := by
  refine .of_start (fun cs m rest hread => ?_) fun cs m rest hread hrest => ?_
  · unfold Json.readMember at hread
    split at hread
    · simp [isSkipped]
    · cases hread
  unfold Json.readMember at hread
  split at hread
  · obtain ⟨⟨key, more⟩, hkey, hread⟩ := Except.bind_eq_ok_iff.1 hread
    dsimp only at hread
    split at hread
    · cases hread
    · rename_i behind hcolon
      obtain ⟨⟨v, behind'⟩, hv, heq⟩ := Except.bind_eq_ok_iff.1 hread
      cases heq
      obtain ⟨literal, hspellsKey, hdecoded⟩ := spells_of_readString hkey
      obtain ⟨kinds, hspells, hmean⟩ := h behind v _ (by rw [hgap]; exact hv) hrest
      refine ⟨_, hspellsKey.append
        ((spells_skipGap_mark .colon hcolon).append hspells), fun ts hts => ?_⟩
      obtain ⟨k, us, rfl, hk, hus⟩ := List.map_eq_cons_iff.1 hts
      obtain ⟨colon, vs, rfl, hcolonKind, hvs⟩ := List.map_eq_cons_iff.1 hus
      exact .member hk hdecoded hcolonKind (hmean vs hvs)
    · cases hread
  · cases hread

theorem skipGap_skipGap (cs : List Char) : skipGap (skipGap cs) = skipGap cs := by
  induction cs with
  | nil => rfl
  | cons c cs ih =>
    by_cases hgap : isGap c
    · have hskip : skipGap (c :: cs) = skipGap cs := List.dropWhile_cons_of_pos hgap
      rw [hskip, ih]
    · rw [Json.skipGap_cons hgap, Json.skipGap_cons hgap]

/-- Where a value opens brackets at most `levels` deep, its phrase nests one level more. -/
theorem agrees_readValue (levels : Nat) :
    Agrees (Json.readValue levels) (IsValue (levels + 1)) := by
  induction levels with
  | zero =>
    intro cs v rest h hrest
    rw [Json.readValue_congr (skipGap_skipGap cs), Json.readValue_zero] at h
    split at h
    · cases h
    · cases h
    · exact agrees_readScalar cs v rest h hrest
  | succ levels ih =>
    intro cs v rest h hrest
    have hgap (cs : List Char) : Json.readValue levels (skipGap cs) = Json.readValue levels cs :=
      Json.readValue_congr (skipGap_skipGap cs)
    rw [Json.readValue_congr (skipGap_skipGap cs), Json.readValue_succ] at h
    split at h
    · rename_i more hopen
      obtain ⟨⟨items, behind⟩, hitems, heq⟩ := Except.bind_eq_ok_iff.1 h
      cases heq
      obtain ⟨kinds, hspells, hmean⟩ :=
        ih.readsList .closeBracket (by decide) (Json.readsList_of_readItems hitems)
      refine ⟨_, (spells_skipGap_mark .openBracket hopen).append hspells,
        fun ts hts => ?_⟩
      obtain ⟨o, us, rfl, ho, hus⟩ := List.map_eq_cons_iff.1 hts
      obtain ⟨hlisted, hclose⟩ := hmean us hus
      exact .array ho hlisted hclose
    · rename_i more hopen
      obtain ⟨⟨members, behind⟩, hmembers, heq⟩ := Except.bind_eq_ok_iff.1 h
      cases heq
      obtain ⟨ms, hlist, rfl⟩ := Json.exists_readsList_of_readMembers hmembers
      obtain ⟨kinds, hspells, hmean⟩ :=
        (ih.readMember hgap).readsList .closeBrace (by decide) hlist
      refine ⟨_, (spells_skipGap_mark .openBrace hopen).append hspells,
        fun ts hts => ?_⟩
      obtain ⟨o, us, rfl, ho, hus⟩ := List.map_eq_cons_iff.1 hts
      obtain ⟨hlisted, hclose⟩ := hmean us hus
      exact .object ho hlisted hclose
    · exact agrees_readScalar cs v rest h hrest

theorem map_kind_tokensBehind (before cuts : List Cut) :
    (tokensBehind before cuts).map (·.kind) = cuts.filterMap (·.piece.kind?) ++ [.endOfInput] := by
  induction cuts generalizing before with
  | nil => rfl
  | cons cut cuts ih =>
    rw [tokensBehind, List.map_append, ih, tokenBehind?, List.filterMap_cons]
    cases cut.piece.kind? <;> rfl

/-- A text that is one JSON value is cut up to its end into tokens that are one phrase. -/
theorem exists_of_read {text : String} {v : Json} (h : Json.read text = .ok v) :
    ∃ kinds, Spells text.toList kinds [] ∧ AllMean (IsValue maxNesting) kinds v := by
  unfold Json.read Json.readWhole at h
  split at h
  · cases h
  rename_i w rest hread
  split at h
  · rename_i hgap
    obtain rfl := Except.ok.inj h
    obtain ⟨kinds, hspells, hmean⟩ := agrees_readValue Json.maxDepth text.toList w rest
      (by rw [Json.readValue_congr (skipGap_skipGap _), hread])
      (endsValue_of_skipGap (by simp [hgap, EndsValue]))
    have hend : Spells rest [] (skipGap rest) := spells_skipGap (by simp [hgap])
    rw [hgap] at hend
    exact ⟨_, hspells.append hend, by rw [List.append_nil]; exact hmean⟩
  · cases h

/-- **JSON is read in interface definitions as it is read by itself.**  The tokens of a text that
is one JSON value are read up to the end of the text, as the same value. -/
theorem parseValue_of_read {text : String} {v : Json} (h : Json.read text = .ok v) :
    ∃ tokens e, tokenize text = .ok (tokens ++ [e]) ∧ e.kind = .endOfInput ∧
      parseValue (.ofTokens (tokens ++ [e])) = .ok v { current := e, ahead := [] } := by
  obtain ⟨kinds, ⟨cuts, hcuts, rfl⟩, hmean⟩ := exists_of_read h
  have htokens : tokenize text = .ok (tokensBehind [] cuts) :=
    tokenize_of_cutsUp hcuts startsNoPiece_nil
  obtain ⟨tokens, e, heq, htokensKinds, hend⟩ :=
    List.map_eq_append_iff.1 (map_kind_tokensBehind [] cuts)
  obtain ⟨e, rfl, he⟩ := List.map_eq_singleton_iff.1 hend
  have hends := endsOnce_of_tokenize htokens
  rw [heq] at hends htokens
  refine ⟨tokens, e, htokens, he, ?_⟩
  have hcursor : (Cursor.ofTokens (tokens ++ [e])).tokens = tokens ++ [e] := by
    cases tokens <;> rfl
  have hdepth : (Cursor.ofTokens (tokens ++ [e])).depth = 0 := by
    cases tokens <;> rfl
  refine reads_parseValue.complete hdepth (hmean tokens htokensKinds) ⟨?_, ?_, ?_⟩ trivial
  · rw [hcursor]
    exact hends
  · rw [hcursor]
    rfl
  · rw [hdepth]

/-- A text with a gap, an escape and a list in a list. -/
def listText : String := String.ofList ['[', '[', ']', ',', ' ', '"', '\\', 'n', '"', ']']

theorem parseValue_listText :
    Json.read listText = .ok (.array [.array [], .string (String.ofList ['\n'])]) ∧
      ∃ tokens e, tokenize listText = .ok (tokens ++ [e]) ∧ e.kind = .endOfInput ∧
        parseValue (.ofTokens (tokens ++ [e])) =
          .ok (.array [.array [], .string (String.ofList ['\n'])])
            { current := e, ahead := [] } := by
  have hread : Json.read listText = .ok (.array [.array [], .string (String.ofList ['\n'])]) := by
    rw [Json.read, listText, String.toList_ofList]
    rfl
  exact ⟨hread, parseValue_of_read hread⟩

end IdlCompiler.Idl
