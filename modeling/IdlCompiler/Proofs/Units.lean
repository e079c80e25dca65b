/-
# Reading interface definitions

The step that reads a whole unit reads the units of the grammar.  The tokens of a text end
with the end of the text, so the main statement, `parseTokens_eq_ok_iff`, holds of every
text: its tokens are read as a protocol exactly if they are an interface definition that
stands for the protocol.
-/
import IdlCompiler.Proofs.Declarations

namespace IdlCompiler.Idl

open Parse

variable {c : Cursor}

/-! ## Units -/

/-- Adding declarations one after the other appends the types and the messages, and enters
the full names of the types into the lookup. -/
theorem foldl_addTo (head : Protocol) (declarations : List Declaration) :
    declarations.foldl Declaration.addTo head = { head with
      types := head.types ++ declarations.filterMap Declaration.type?
      messages := head.messages ++ declarations.filterMap Declaration.message?
      lookup := (((declarations.filterMap Declaration.type?).map head.fullNameOf).zipIdx
        head.types.length).foldl (fun lookup entry => lookup.putNew entry.1 entry.2)
          head.lookup } := by
  induction declarations generalizing head with
  | nil => simp
  | cons d declarations ih =>
    rw [List.foldl_cons, ih]
    cases d with
    | type t =>
      have htypes : (Declaration.type t :: declarations).filterMap Declaration.type? =
        t :: declarations.filterMap Declaration.type? := rfl
      have hmessages : (Declaration.type t :: declarations).filterMap Declaration.message? =
        declarations.filterMap Declaration.message? := rfl
      simp only [Declaration.addTo, Protocol.addType, htypes, hmessages, List.append_assoc,
        List.singleton_append, List.length_append, List.length_singleton, List.map_cons,
        List.zipIdx_cons, List.foldl_cons]
      rfl
    | message m =>
      have htypes : (Declaration.message m :: declarations).filterMap Declaration.type? =
        declarations.filterMap Declaration.type? := rfl
      have hmessages : (Declaration.message m :: declarations).filterMap Declaration.message? =
        m :: declarations.filterMap Declaration.message? := rfl
      simp only [Declaration.addTo, Protocol.addMessage, htypes, hmessages, List.append_assoc,
        List.singleton_append]
      rfl

/-- The end of the text is the last token. -/
theorem EndsOnce.eq_singleton {c : Cursor} (h : EndsOnce c.tokens)
    (hkind : c.current.kind = .endOfInput) : c.tokens = [c.current] := by
  obtain ⟨ts, e, htokens, -, hts⟩ := h
  cases ts with
  | nil =>
    rw [Cursor.tokens] at htokens ⊢
    obtain ⟨rfl, hahead⟩ := List.cons.inj htokens
    rw [hahead]
  | cons t ts =>
    obtain ⟨rfl, -⟩ := List.cons.inj htokens
    exact absurd hkind (hts _ (by simp))

/-- What is read as a unit is a unit. -/
theorem sound_parseUnit {c' : Cursor} {p : Protocol} (hends : EndsOnce c.tokens)
    (hdepth : c.depth = 0) (hstep : parseUnit c = .ok p c') : IsUnit .language c.tokens p := by
  have hdeclarations := reads_parseDeclaration.untilSeeing startsWith_isDeclaration
  rw [parseUnit, current_bind] at hstep
  obtain ⟨annotations, c₁, hnotes, hstep⟩ := bind_eq_ok_iff.1 hstep
  obtain ⟨_, c₂, hkeyword, hstep⟩ := bind_eq_ok_iff.1 hstep
  obtain ⟨name, c₃, hname, hstep⟩ := bind_eq_ok_iff.1 hstep
  obtain ⟨⟨space, properties⟩, c₄, hmeans, hstep⟩ := bind_eq_ok_iff.1 hstep
  obtain ⟨_, c₅, hopen, hstep⟩ := bind_eq_ok_iff.1 hstep
  obtain ⟨declarations, c₆, hmembers, hstep⟩ := bind_eq_ok_iff.1 hstep
  obtain ⟨_, c₇, hclose, hstep⟩ := bind_eq_ok_iff.1 hstep
  rw [check_bind] at hstep
  by_cases hend : c₇.current.kind = .endOfInput
  · simp only [hend, decide_true, if_true] at hstep
    obtain ⟨hp, rfl⟩ := pure_eq_ok_iff.1 hstep
    obtain ⟨happly, rfl⟩ := ofReading_eq_ok_iff.1 hmeans
    obtain ⟨hstrings, rfl, rfl⟩ := applyTypeAnnotations_eq_ok_iff.1 happly
    obtain ⟨ts, ⟨hts, hnamed⟩, h₁⟩ := reads_parseAnnotations.sound hends hdepth hnotes
    obtain ⟨k, hk, h₂⟩ := (expectKeyword_eq_ok_iff h₁.endsOnce').1 hkeyword
    obtain ⟨n, hn, h₃⟩ := (expectWord_eq_ok_iff h₂.endsOnce').1 hname
    obtain ⟨o, ho, h₄⟩ := (expect_eq_ok_iff h₃.endsOnce').1 hopen
    have hhead := h₁.trans (h₂.trans (h₃.trans h₄))
    obtain ⟨us, hus, h₅⟩ :=
      hdeclarations.sound h₄.endsOnce' (hhead.depth.trans hdepth) hmembers
    obtain ⟨b, hb, h₆⟩ := (expect_eq_ok_iff h₅.endsOnce').1 hclose
    -- nothing is left behind the closing brace but the end
    have htokens := (h₁.trans (h₂.trans (h₃.trans (h₄.trans (h₅.trans h₆))))).tokens
    rw [h₆.endsOnce'.eq_singleton hend] at htokens
    rw [← hp, foldl_addTo, htokens, ← docOf_notes_token h₁ h₂]
    have hunit := IsUnit.unit hts (allowsOnType_iff.2 ⟨hnamed, hstrings⟩) hk hn ho hus hb hend
    simpa [protocolOf, Protocol.lookupOf] using hunit
  · simp only [hend, decide_false, Bool.false_eq_true, if_false] at hstep
    obtain ⟨_, _, hfail, -⟩ := bind_eq_ok_iff.1 hstep
    exact absurd hfail unexpected_ne_ok

/-- Every unit is read. -/
theorem complete_parseUnit {p : Protocol} (hends : EndsOnce c.tokens) (hdepth : c.depth = 0)
    (hunit : IsUnit .language c.tokens p) : ∃ c', parseUnit c = .ok p c' := by
  have hdeclarations := reads_parseDeclaration.untilSeeing startsWith_isDeclaration
  generalize htokens : c.tokens = tokens at hunit
  obtain ⟨hts, hallowed, hk, hn, ho, hus, hb, he⟩ := hunit
  rename_i ts us k n o b e annotations name declarations
  obtain ⟨hnamed, hstrings⟩ := allowsOnType_iff.1 hallowed
  have hbehind : Behind c (ts ++ k :: n :: o :: (us ++ [b])) { current := e, ahead := [] } :=
    ⟨hends, by rw [htokens]; simp [Cursor.tokens], hdepth.symm⟩
  obtain ⟨c₁, h₁, hbehind⟩ := hbehind.split
  obtain ⟨c₂, h₂, hbehind⟩ := hbehind.split_cons
  obtain ⟨c₃, h₃, hbehind⟩ := hbehind.split_cons
  obtain ⟨c₄, h₄, hbehind⟩ := hbehind.split_cons
  obtain ⟨c₅, h₅, h₆⟩ := hbehind.split
  have hhead := h₁.trans (h₂.trans (h₃.trans h₄))
  refine ⟨{ current := e, ahead := [] }, ?_⟩
  rw [parseUnit, current_bind, bind_of_ok (reads_parseAnnotations.complete hdepth ⟨hts, hnamed⟩
    h₁ (by simp [h₂.current_eq, hk])),
    bind_of_ok ((expectKeyword_eq_ok_iff h₂.endsOnce).2 ⟨_, hk, h₂⟩),
    bind_of_ok ((expectWord_eq_ok_iff h₃.endsOnce).2 ⟨_, hn, h₃⟩),
    bind_of_ok (ofReading_eq_ok_iff.2
      ⟨applyTypeAnnotations_eq_ok_iff.2 ⟨hstrings, rfl, rfl⟩, rfl⟩)]
  dsimp only
  rw [bind_of_ok ((expect_eq_ok_iff h₄.endsOnce).2 ⟨_, ho, h₄⟩),
    bind_of_ok (hdeclarations.complete (hhead.depth.trans hdepth) hus h₅
      (by simp [h₆.current_eq, hb])),
    bind_of_ok ((expect_eq_ok_iff h₆.endsOnce).2 ⟨_, hb, h₆⟩), check_bind]
  simp only [he, decide_true, if_true]
  rw [foldl_addTo, docOf_notes_token h₁ h₂]
  simp [protocolOf, Protocol.lookupOf]

theorem parseUnit_eq_ok_iff {p : Protocol} (hends : EndsOnce c.tokens) (hdepth : c.depth = 0) :
    (∃ c', parseUnit c = .ok p c') ↔ IsUnit .language c.tokens p :=
  ⟨fun ⟨_, hstep⟩ => sound_parseUnit hends hdepth hstep, complete_parseUnit hends hdepth⟩

/-! ## Texts -/

/-- No piece of a text is a token for the end of the text. -/
theorem scan_ne_endOfInput {ch : Char} {cs : List Char} {s : Scan} (h : scan ch cs = .ok s) :
    s.piece ≠ .token .endOfInput := by
  unfold scan at h
  split at h
  · cases h
    nofun
  unfold scanToken at h
  split at h
  · cases h
    nofun
  split at h
  · cases h
    nofun
  split at h
  · split at h <;> cases h
    nofun
  · split at h <;> cases h
    nofun
  · dsimp only at h
    split at h
    · split at h <;> cases h
      nofun
    · cases h
  · cases h
    nofun
  · split at h <;> cases h
    nofun
  · split at h <;> cases h
    nofun

theorem endsOnce_of_tokensFrom {rounds : Nat} {position : Position} {doc : Option String}
    {cs : List Char} {tokens : List Token}
    (h : tokensFrom rounds position doc cs = .ok tokens) : EndsOnce tokens := by
  induction rounds generalizing position doc cs tokens with
  | zero =>
    cases cs with
    | nil =>
      obtain rfl := Except.ok.inj h
      exact ⟨[], _, rfl, rfl, by simp⟩
    | cons ch cs => cases h
  | succ rounds ih =>
    cases cs with
    | nil =>
      obtain rfl := Except.ok.inj h
      exact ⟨[], _, rfl, rfl, by simp⟩
    | cons ch cs =>
      rw [tokensFrom] at h
      split at h
      · cases h
      · rename_i s hs
        -- gaps and comments are left out, and every other piece is a token
        split at h
        · exact ih h
        · exact ih h
        · rename_i kind hkind
          cases hrest : tokensFrom rounds (position.after s.taken) none s.rest with
          | error e =>
            rw [hrest] at h
            cases h
          | ok rest =>
            rw [hrest] at h
            obtain rfl := Except.ok.inj h
            obtain ⟨ts, e, rfl, he, hts⟩ := ih hrest
            have hne : kind ≠ .endOfInput := fun heq => scan_ne_endOfInput hs (heq ▸ hkind)
            exact ⟨⟨kind, position, doc⟩ :: ts, e, rfl, he, List.forall_mem_cons.2 ⟨hne, hts⟩⟩

/-- The tokens of a text end with the end of the text. -/
theorem endsOnce_of_tokenize {text : String} {tokens : List Token}
    (h : tokenize text = .ok tokens) : EndsOnce tokens :=
  endsOnce_of_tokensFrom h

/-- Tokens that end once are read as a unit of the grammar. -/
theorem parseTokens_eq_ok_iff_isUnit {tokens : List Token} {p : Protocol}
    (hends : EndsOnce tokens) : parseTokens tokens = .ok p ↔ IsUnit .language tokens p := by
  have htokens : (Cursor.ofTokens tokens).tokens = tokens := by
    obtain ⟨ts, e, rfl, -, -⟩ := hends
    cases ts <;> rfl
  have hdepth : (Cursor.ofTokens tokens).depth = 0 := by
    cases tokens <;> rfl
  have hunit := parseUnit_eq_ok_iff (p := p) (htokens.symm ▸ hends) hdepth
  rw [htokens] at hunit
  rw [← hunit, parseTokens]
  cases hparse : parseUnit (Cursor.ofTokens tokens) with
  | ok q c => simp
  | error e c => simp

/-- **The reader accepts the grammar.**  The tokens of a text are read as a protocol exactly
if they are an interface definition that stands for the protocol, by the grammar with the
rules of the language. -/
theorem parseTokens_eq_ok_iff {text : String} {tokens : List Token} {p : Protocol}
    (h : tokenize text = .ok tokens) :
    parseTokens tokens = .ok p ↔ IsUnit .language tokens p :=
  parseTokens_eq_ok_iff_isUnit (endsOnce_of_tokenize h)

/-- A token in a column of the first line. -/
def TokenKind.inColumn (kind : TokenKind) (column : Nat) : Token :=
  { kind, position := ⟨1, column⟩ }

/-- An error and a message that throws it. -/
def throwingTokens : List Token := [
  TokenKind.inColumn (.word "protocol") 1, TokenKind.inColumn (.word "P") 10,
  TokenKind.inColumn (.mark .openBrace) 12, TokenKind.inColumn (.word "error") 14,
  TokenKind.inColumn (.word "E") 20, TokenKind.inColumn (.mark .openBrace) 22,
  TokenKind.inColumn (.mark .closeBrace) 23, TokenKind.inColumn (.word "void") 25,
  TokenKind.inColumn (.word "f") 30, TokenKind.inColumn (.mark .openParen) 31,
  TokenKind.inColumn (.mark .closeParen) 32, TokenKind.inColumn (.word "throws") 34,
  TokenKind.inColumn (.word "E") 41, TokenKind.inColumn (.mark .semicolon) 42,
  TokenKind.inColumn (.mark .closeBrace) 44, TokenKind.inColumn .endOfInput 45]

theorem throwingTokens_isUnit :
    tokenize "protocol P { error E {} void f() throws E; }" = .ok throwingTokens ∧
      IsUnit .language throwingTokens (protocolOf { name := "P" } [
        .type { name := "E", body := .record true [] },
        .message { name := "f", response := .null, errors := ["E"] }]) := by
  have htokens : tokenize "protocol P { error E {} void f() throws E; }" = .ok throwingTokens := by
    rfl
  exact ⟨htokens, (parseTokens_eq_ok_iff htokens).1 rfl⟩

/-- A record with the name `record` and a message that answers with it. -/
def keywordTokens : List Token := [
  TokenKind.inColumn (.word "protocol") 1, TokenKind.inColumn (.word "P") 10,
  TokenKind.inColumn (.mark .openBrace) 12, TokenKind.inColumn (.word "record") 14,
  TokenKind.inColumn (.word "record") 21, TokenKind.inColumn (.mark .openBrace) 28,
  TokenKind.inColumn (.mark .closeBrace) 29, TokenKind.inColumn (.word "record") 31,
  TokenKind.inColumn (.word "f") 38, TokenKind.inColumn (.mark .openParen) 39,
  TokenKind.inColumn (.mark .closeParen) 40, TokenKind.inColumn (.mark .semicolon) 41,
  TokenKind.inColumn (.mark .closeBrace) 43, TokenKind.inColumn .endOfInput 44]

/-- A protocol with a property whose name has a meaning of its own. -/
def reservedTokens : List Token := [
  TokenKind.inColumn (.mark .atSign) 1, TokenKind.inColumn (.word "doc") 2,
  TokenKind.inColumn (.mark .openParen) 5, TokenKind.inColumn (.stringLiteral "\"x\"") 6,
  TokenKind.inColumn (.mark .closeParen) 9, TokenKind.inColumn (.word "protocol") 11,
  TokenKind.inColumn (.word "P") 20, TokenKind.inColumn (.mark .openBrace) 22,
  TokenKind.inColumn (.mark .closeBrace) 23, TokenKind.inColumn .endOfInput 24]

/-- By the bare grammar the word `record` may start a message. -/
theorem isUnit_keywordTokens : ∃ p, IsUnit .none keywordTokens p := by
  have hbody : IsBody .none (if false then "error" else "record")
      (TokenKind.inColumn (.word "record") 21 :: TokenKind.inColumn (.mark .openBrace) 28 ::
        ([] ++ [TokenKind.inColumn (.mark .closeBrace) 29]))
      ("record", .record false ([] : List (List Field)).flatten) := .record rfl rfl .nil rfl
  have htype : IsDeclaration .none
      ([] ++ TokenKind.inColumn (.word "record") 14 :: _) _ := .type .nil nofun rfl hbody
  have hresponse : IsResponse .none [TokenKind.inColumn (.word "record") 31] (.named "record") :=
    .type (.word rfl (by decide : "record" ∉ typeWords)) fun _ _ _ _ => trivial
  have hmessage : IsMessage .none ([TokenKind.inColumn (.word "record") 31] ++
      TokenKind.inColumn (.word "f") 38 :: TokenKind.inColumn (.mark .openParen) 39 ::
        ([] ++ TokenKind.inColumn (.mark .closeParen) 40 ::
          ([] ++ ([] ++ [TokenKind.inColumn (.mark .semicolon) 41])))) _ :=
    .message hresponse rfl rfl .nil rfl .none .no rfl
  have hdeclaration : IsDeclaration .none ([] ++ _) _ := .message .nil nofun hmessage
  have hunit : IsUnit .none ([] ++ TokenKind.inColumn (.word "protocol") 1 ::
      TokenKind.inColumn (.word "P") 10 :: TokenKind.inColumn (.mark .openBrace) 12 ::
        (_ ++ [TokenKind.inColumn (.mark .closeBrace) 43, TokenKind.inColumn .endOfInput 44])) _ :=
    .unit .nil nofun rfl rfl rfl (.cons htype (.cons hdeclaration .nil)) rfl rfl
  exact ⟨_, hunit⟩

/-- By the bare grammar a property may have any name. -/
theorem isUnit_reservedTokens : ∃ p, IsUnit .none reservedTokens p := by
  have hvalue : IsValue maxNesting [TokenKind.inColumn (.stringLiteral "\"x\"") 6] (.string "x") :=
    ValueForm.string rfl (by rfl)
  have hnote : IsNote (TokenKind.inColumn (.mark .atSign) 1 ::
      TokenKind.inColumn (.word "doc") 2 :: TokenKind.inColumn (.mark .openParen) 5 ::
        (_ ++ [TokenKind.inColumn (.mark .closeParen) 9])) ⟨"doc", _, _⟩ :=
    .note rfl rfl rfl hvalue rfl
  have hallowed : Rules.none.AllowsOnType [⟨"doc", .string "x", ⟨1, 1⟩⟩] := by
    simp [Rules.AllowsOnType, Rules.none]
  have hunit : IsUnit .none ((_ ++ []) ++ TokenKind.inColumn (.word "protocol") 11 ::
      TokenKind.inColumn (.word "P") 20 :: TokenKind.inColumn (.mark .openBrace) 22 ::
        ([] ++ [TokenKind.inColumn (.mark .closeBrace) 23, TokenKind.inColumn .endOfInput 24])) _ :=
    .unit (.cons hnote .nil) hallowed rfl rfl rfl .nil rfl rfl
  exact ⟨_, hunit⟩

/-- Without the rules of the language the grammar has more interface definitions than are
read: a message may not start with a word that starts the declaration of a type, and a
property may not have a reserved name. -/
theorem not_parseTokens_eq_ok_iff_none :
    (tokenize "protocol P { record record {} record f(); }" = .ok keywordTokens ∧
      ¬ ∀ p, parseTokens keywordTokens = .ok p ↔ IsUnit .none keywordTokens p) ∧
    (tokenize "@doc(\"x\") protocol P {}" = .ok reservedTokens ∧
      ¬ ∀ p, parseTokens reservedTokens = .ok p ↔ IsUnit .none reservedTokens p) := by
  refine ⟨⟨by rfl, fun h => ?_⟩, ⟨by rfl, fun h => ?_⟩⟩
  · obtain ⟨p, hunit⟩ := isUnit_keywordTokens
    have hfails : parseTokens keywordTokens =
        .error (.fault ⟨1, 39⟩ (.unexpectedToken "'\x7b'" (.mark .openParen))) := by rfl
    have hread := (h p).2 hunit
    rw [hfails] at hread
    cases hread
  · obtain ⟨p, hunit⟩ := isUnit_reservedTokens
    have hfails : parseTokens reservedTokens =
        .error (.fault ⟨1, 1⟩ (.reservedProperty "doc")) := by rfl
    have hread := (h p).2 hunit
    rw [hfails] at hread
    cases hread

end IdlCompiler.Idl
