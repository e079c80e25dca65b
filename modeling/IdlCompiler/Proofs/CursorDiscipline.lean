/-
# What the parser does to its cursor

Every procedure of the parser, started at a token of a list that ends once, stops at that
token or a later one and at the depth at which it started, whether it succeeds or fails.
Most procedures take a token whenever they succeed, among them all that the parser repeats:
so a repetition goes on at later tokens only, its rounds are never used up, and the
elementary steps are at most eight for each token from the start on
(`Procedure.disciplined`).
-/
import IdlCompiler.Proofs.PaidSteps

namespace IdlCompiler.Idl

/-! ## Positions in a list of tokens -/

/-- The current token of a cursor is the one at a position of a list. -/
structure Cursor.IsAt (tokens : List Token) (pos : Nat) (c : Cursor) : Prop where
  lt : pos < tokens.length
  tokens : c.tokens = tokens.drop pos

namespace Cursor.IsAt

variable {tokens ts : List Token} {pos : Nat} {c c' : Cursor}

theorem of_tokens (h : c.tokens = tokens.drop pos) : c.IsAt tokens pos := by
  refine ⟨?_, h⟩
  have hlength := congrArg List.length h
  simp only [Cursor.tokens, List.length_cons, List.length_drop] at hlength
  omega

theorem endsOnce (h : c.IsAt tokens pos) (hends : EndsOnce tokens) : EndsOnce c.tokens := by
  obtain ⟨us, e, rfl, he, hus⟩ := hends
  have hlt : pos ≤ us.length := by simpa [Nat.lt_succ_iff] using h.lt
  refine ⟨us.drop pos, e, ?_, he, fun t ht => hus t (List.mem_of_mem_drop ht)⟩
  rw [h.tokens, List.drop_append_of_le_length hlt]

theorem behind (h : c.IsAt tokens pos) (hbehind : Behind c ts c') :
    c'.IsAt tokens (pos + ts.length) := by
  refine of_tokens ?_
  rw [← List.drop_drop, ← h.tokens, hbehind.tokens, List.drop_left]

end Cursor.IsAt

/-! ## Rounds -/

theorem Parse.bind_congr_at {α β : Type} {c : Cursor} {x x' : Parse α} {f : α → Parse β}
    (h : x c = x' c) : (x >>= f) c = (x' >>= f) c := by
  change EStateM.bind x f c = EStateM.bind x' f c
  rw [EStateM.bind, EStateM.bind, h]

namespace Repetition

open Parse

variable {α : Type} {r : Repetition} {step : Parse α} {more more' : Parse (List α)} {c : Cursor}

/-- If a step takes a token whenever it succeeds, then a round goes on behind a token
only. -/
theorem round_congr
    (hstep : ∀ {a c'}, step c = .ok a c' → ∃ t ts, Behind c (t :: ts) c')
    (hmore : ∀ {t ts c'}, Behind c (t :: ts) c' → more c' = more' c') :
    r.round check eat step more c = r.round check eat step more' c := by
  -- behind the step, and behind a comma that follows it
  have hgoOn : (step >>= fun a => more >>= fun as => pure (a :: as)) c =
      (step >>= fun a => more' >>= fun as => pure (a :: as)) c := by
    refine bind_congr_ok fun a m ha => ?_
    obtain ⟨t, ts, hbehind⟩ := hstep ha
    exact bind_congr_at (hmore hbehind)
  have hcomma : (step >>= fun a => eat (.mark .comma) >>= fun b =>
        if b then more >>= fun as => pure (a :: as) else pure [a]) c =
      (step >>= fun a => eat (.mark .comma) >>= fun b =>
        if b then more' >>= fun as => pure (a :: as) else pure [a]) c := by
    refine bind_congr_ok fun a m ha => bind_congr_ok fun b m' hb => ?_
    obtain ⟨t, ts, hbehind⟩ := hstep ha
    obtain ⟨us, hbehind'⟩ := exists_behind_eat hbehind.endsOnce' hb
    split
    · exact bind_congr_at (hmore (hbehind.trans hbehind'))
    · rfl
  cases r with
  | whileSeeing kind =>
    simp only [round, check_bind]
    split
    · exact hgoOn
    · rfl
  | untilSeeing kind =>
    simp only [round, check_bind]
    split
    · rfl
    · exact hgoOn
  | untilSeeingCommas kind =>
    simp only [round, check_bind]
    split
    · rfl
    · exact hcomma
  | betweenCommas => exact hcomma

/-- More rounds than there are tokens ahead are as good as any. -/
theorem rounds_eq_rounds {n n' : Nat}
    (hstep : ∀ {c a c'}, EndsOnce c.tokens → step c = .ok a c' → ∃ t ts, Behind c (t :: ts) c')
    (hends : EndsOnce c.tokens) (hn : c.ahead.length < n) (hn' : c.ahead.length < n') :
    r.rounds step n c = r.rounds step n' c := by
  induction n generalizing c n' with
  | zero => omega
  | succ n ih =>
    obtain ⟨n', rfl⟩ : ∃ k, n' = k + 1 := ⟨n' - 1, by omega⟩
    rw [rounds_succ, rounds_succ]
    refine round_congr (hstep hends) fun hbehind => ?_
    have hless := hbehind.length_lt
    exact ih hbehind.endsOnce' (by omega) (by omega)

/-- A repetition of a step that takes a token whenever it succeeds is a round which goes on
with the repetition: no number of rounds ends it. -/
theorem all_eq_round
    (hstep : ∀ {c a c'}, EndsOnce c.tokens → step c = .ok a c' → ∃ t ts, Behind c (t :: ts) c')
    (hends : EndsOnce c.tokens) : r.all step c = r.round check eat step (r.all step) c := by
  rw [all_apply, rounds_succ]
  refine round_congr (hstep hends) fun {t ts c'} hbehind => ?_
  rw [all_apply]
  have hless := hbehind.length_lt
  exact rounds_eq_rounds hstep hbehind.endsOnce' hless (Nat.lt_succ_self _)

end Repetition

/-! ## Procedures -/

/-- The procedures of the parser, with what they are started with. -/
inductive Procedure : Type → Type
  | current : Procedure Token
  | advance : Procedure Unit
  | check (kind : TokenKind) : Procedure Bool
  | eat (kind : TokenKind) : Procedure Bool
  | expect (mark : Mark) : Procedure Unit
  | expectKeyword (keyword : String) : Procedure Unit
  | expectWord (what : String) : Procedure String
  | parseMember (levels : Nat) : Procedure (String × Json)
  | parseValueIn (levels : Nat) : Procedure Json
  | parseValue : Procedure Json
  | parseAnnotation : Procedure Annotation
  | parseAnnotations : Procedure (List Annotation)
  | parseTypeIn (levels : Nat) : Procedure Schema
  | parseType : Procedure Schema
  | parseDefault : Procedure (Option Json)
  | parseVariable (doc : Option String) (properties : Properties) (schema : Schema) :
      Procedure Field
  | parseFields : Procedure (List Field)
  | parseParameter : Procedure Field
  | parseRecord (doc : Option String) (annotations : List Annotation) (isError : Bool) :
      Procedure NamedType
  | parseEnum (doc : Option String) (annotations : List Annotation) : Procedure NamedType
  | parseSize : Procedure UInt64
  | parseFixed (doc : Option String) (annotations : List Annotation) : Procedure NamedType
  | parseResponse : Procedure Schema
  | parseThrows : Procedure (List String)
  | parseMessage : Procedure Message
  | parseDeclaration : Procedure Declaration
  | parseUnit : Procedure Protocol

namespace Procedure

variable {α : Type}

/-- What a procedure does. -/
def run : {α : Type} → Procedure α → Parse α
  | _, current => Parse.current
  | _, advance => Parse.advance
  | _, check kind => Parse.check kind
  | _, eat kind => Parse.eat kind
  | _, expect mark => Parse.expect mark
  | _, expectKeyword keyword => Parse.expectKeyword keyword
  | _, expectWord what => Parse.expectWord what
  | _, parseMember levels => Idl.parseMember (Idl.parseValueIn levels)
  | _, parseValueIn levels => Idl.parseValueIn levels
  | _, parseValue => Idl.parseValue
  | _, parseAnnotation => Idl.parseAnnotation
  | _, parseAnnotations => Idl.parseAnnotations
  | _, parseTypeIn levels => Idl.parseTypeIn levels
  | _, parseType => Idl.parseType
  | _, parseDefault => Idl.parseDefault
  | _, parseVariable doc properties schema => Idl.parseVariable doc properties schema
  | _, parseFields => Idl.parseFields
  | _, parseParameter => Idl.parseParameter
  | _, parseRecord doc annotations isError => Idl.parseRecord doc annotations isError
  | _, parseEnum doc annotations => Idl.parseEnum doc annotations
  | _, parseSize => Idl.parseSize
  | _, parseFixed doc annotations => Idl.parseFixed doc annotations
  | _, parseResponse => Idl.parseResponse
  | _, parseThrows => Idl.parseThrows
  | _, parseMessage => Idl.parseMessage
  | _, parseDeclaration => Idl.parseDeclaration
  | _, parseUnit => Idl.parseUnit

/-- A procedure with its cost. -/
def counted : {α : Type} → Procedure α → Counted α
  | _, current => Counted.current
  | _, advance => Counted.advance
  | _, check kind => Counted.check kind
  | _, eat kind => Counted.eat kind
  | _, expect mark => Counted.expect mark
  | _, expectKeyword keyword => Counted.expectKeyword keyword
  | _, expectWord what => Counted.expectWord what
  | _, parseMember levels => Counted.parseMember (Counted.parseValueIn levels)
  | _, parseValueIn levels => Counted.parseValueIn levels
  | _, parseValue => Counted.parseValue
  | _, parseAnnotation => Counted.parseAnnotation
  | _, parseAnnotations => Counted.parseAnnotations
  | _, parseTypeIn levels => Counted.parseTypeIn levels
  | _, parseType => Counted.parseType
  | _, parseDefault => Counted.parseDefault
  | _, parseVariable doc properties schema => Counted.parseVariable doc properties schema
  | _, parseFields => Counted.parseFields
  | _, parseParameter => Counted.parseParameter
  | _, parseRecord doc annotations isError => Counted.parseRecord doc annotations isError
  | _, parseEnum doc annotations => Counted.parseEnum doc annotations
  | _, parseSize => Counted.parseSize
  | _, parseFixed doc annotations => Counted.parseFixed doc annotations
  | _, parseResponse => Counted.parseResponse
  | _, parseThrows => Counted.parseThrows
  | _, parseMessage => Counted.parseMessage
  | _, parseDeclaration => Counted.parseDeclaration
  | _, parseUnit => Counted.parseUnit

/-- The procedures that take a token whenever they succeed. -/
def takesToken : {α : Type} → Procedure α → Bool
  | _, current | _, advance | _, check _ | _, eat _ => false
  | _, parseAnnotations | _, parseDefault | _, parseThrows => false
  | _, _ => true

/-- The steps that the parser repeats, and how. -/
inductive IsRepeated : {α : Type} → Repetition → Procedure α → Prop
  | values (levels : Nat) :
      IsRepeated (.untilSeeingCommas (.mark .closeBracket)) (parseValueIn levels)
  | members (levels : Nat) :
      IsRepeated (.untilSeeingCommas (.mark .closeBrace)) (parseMember levels)
  | annotations : IsRepeated (.whileSeeing (.mark .atSign)) parseAnnotation
  | branches (levels : Nat) : IsRepeated .betweenCommas (parseTypeIn levels)
  | variables (doc : Option String) (properties : Properties) (schema : Schema) :
      IsRepeated .betweenCommas (parseVariable doc properties schema)
  | fields : IsRepeated (.untilSeeing (.mark .closeBrace)) parseFields
  | symbols : IsRepeated (.untilSeeingCommas (.mark .closeBrace)) (expectWord "enum symbol")
  | parameters : IsRepeated (.untilSeeingCommas (.mark .closeParen)) parseParameter
  | errors : IsRepeated .betweenCommas (expectWord "error type")
  | declarations : IsRepeated (.untilSeeing (.mark .closeBrace)) parseDeclaration

theorem IsRepeated.takesToken {r : Repetition} {p : Procedure α} (h : IsRepeated r p) :
    p.takesToken := by
  cases h <;> rfl

theorem run_counted (p : Procedure α) : p.counted.run = p.run := by
  cases p <;> simp [counted, run]

/-- What a procedure of the parser does to a cursor at a position of a list of tokens. -/
structure Disciplined (tokens : List Token) (p : Procedure α) (pos : Nat) (c : Cursor) :
    Prop where
  /-- It stops inside the list, not before the position, and at the depth of the start; and
  behind the position if it takes a token. -/
  ok : ∀ {a c'}, p.run c = .ok a c' →
    ∃ pos', pos ≤ pos' ∧ (p.takesToken → pos < pos') ∧ c'.IsAt tokens pos' ∧ c'.depth = c.depth
  /-- So it does if it fails. -/
  error : ∀ {e c'}, p.run c = .error e c' →
    ∃ pos', pos ≤ pos' ∧ c'.IsAt tokens pos' ∧ c'.depth = c.depth
  /-- All that the parser repeats takes a token. -/
  takesToken : ∀ {r}, IsRepeated r p → p.takesToken
  /-- A round of a repetition goes on behind the position, or it does not go on. -/
  round_congr : p.takesToken → ∀ (r : Repetition) {more more' : Parse (List α)},
    (∀ {pos' c'}, pos < pos' → c'.IsAt tokens pos' → c'.depth = c.depth → more c' = more' c') →
      r.round Parse.check Parse.eat p.run more c = r.round Parse.check Parse.eat p.run more' c
  /-- Rounds are never used up. -/
  all_eq_round : p.takesToken → ∀ r : Repetition,
    r.all p.run c = r.round Parse.check Parse.eat p.run (r.all p.run) c
  /-- The count only watches. -/
  run_counted : p.counted.run = p.run
  /-- The elementary steps are at most eight for each token from the position on. -/
  cost_le : p.counted.cost c ≤ stepsPerToken * (tokens.length - pos)

open Counted in
/-- Every procedure is paid by the tokens that it takes, up to seven steps; and one that
takes a token pays for one more step. -/
theorem paid (p : Procedure α) {c : Cursor} (hends : EndsOnce c.tokens) :
    Paid c p.counted (fun _ => if p.takesToken then -1 else 1) 7 := by
  cases p with
  | current =>
    exact (Paid.looking hends Parse.current_apply).mono (by simp [takesToken]) (by decide)
  | advance => exact (Paid.advance_anywhere hends).mono (by simp [takesToken]) (by decide)
  | check kind =>
    exact (Paid.looking hends Parse.check_apply).mono (by simp [takesToken]) (by decide)
  | eat kind => exact (Paid.eat_anything hends).mono (by simp [takesToken]) (by decide)
  | expect mark => exact (Paid.expect hends).mono (by simp [takesToken]) (by decide)
  | expectKeyword keyword =>
    exact (Paid.expectKeyword hends).mono (by simp [takesToken]) (by decide)
  | expectWord what => exact (Paid.expectWord hends).mono (by simp [takesToken]) (by decide)
  | parseMember levels =>
    exact (paid_parseMember (paid_parseValueIn levels) hends).mono (by simp [takesToken])
      (by decide)
  | parseValueIn levels =>
    exact (paid_parseValueIn levels hends).mono (by simp [takesToken]) (by decide)
  | parseValue => exact (paid_parseValue hends).mono (by simp [takesToken]) (by decide)
  | parseAnnotation =>
    have h := paid_parseAnnotation hends
    exact h.mono (by simp [takesToken]) (by decide)
  | parseAnnotations => exact (paid_parseAnnotations hends).mono (by simp [takesToken]) (by decide)
  | parseTypeIn levels =>
    exact (paid_parseTypeIn levels hends).mono (by simp [takesToken]) (by decide)
  | parseType => exact (paid_parseType hends).mono (by simp [takesToken]) (by decide)
  | parseDefault => exact (paid_parseDefault hends).mono (by simp [takesToken]) (by decide)
  | parseVariable doc properties schema =>
    exact (paid_parseVariable doc properties schema hends).mono (by simp [takesToken]) (by decide)
  | parseFields => exact (paid_parseFields hends).mono (by simp [takesToken]) (by decide)
  | parseParameter => exact (paid_parseParameter hends).mono (by simp [takesToken]) (by decide)
  | parseRecord doc annotations isError =>
    exact (paid_parseRecord doc annotations isError hends).mono (by simp [takesToken]) (by decide)
  | parseEnum doc annotations =>
    exact (paid_parseEnum doc annotations hends).mono (by simp [takesToken]) (by decide)
  | parseSize => exact (paid_parseSize hends).mono (by simp [takesToken]) (by decide)
  | parseFixed doc annotations =>
    exact (paid_parseFixed doc annotations hends).mono (by simp [takesToken]) (by decide)
  | parseResponse => exact (paid_parseResponse hends).mono (by simp [takesToken]) (by decide)
  | parseThrows => exact (paid_parseThrows hends).mono (by simp [takesToken]) (by decide)
  | parseMessage => exact (paid_parseMessage hends).mono (by simp [takesToken]) (by decide)
  | parseDeclaration => exact (paid_parseDeclaration hends).mono (by simp [takesToken]) (by decide)
  | parseUnit => exact (paid_parseUnit hends).mono (by simp [takesToken]) (by decide)

variable {tokens : List Token} {pos : Nat} {c c' : Cursor}

/-- To owe less than nothing is to have taken a token. -/
theorem exists_behind_cons (p : Procedure α) (htakes : p.takesToken) {a : α}
    (hends : EndsOnce c.tokens) (h : p.run c = .ok a c') : ∃ t ts, Behind c (t :: ts) c' := by
  rw [← run_counted] at h
  obtain ⟨ts, hbehind, hcost⟩ := (p.paid hends).ok h
  cases ts with
  | nil =>
    simp only [htakes, if_true, List.length_nil, Int.natCast_zero, Int.mul_zero] at hcost
    omega
  | cons t ts => exact ⟨t, ts, hbehind⟩

/-- Each token from the start on pays for eight steps, and the last one, which is never
taken, for those of a failure. -/
theorem cost_le (p : Procedure α) (hends : EndsOnce c.tokens) :
    p.counted.cost c ≤ stepsPerToken * c.tokens.length := by
  have hpaid : ∃ ts c', Behind c ts c' ∧
      (p.counted.cost c : Int) ≤ stepsPerToken * ts.length + 7 := by
    cases h : p.counted.run c with
    | ok a c' =>
      obtain ⟨ts, hbehind, hcost⟩ := (p.paid hends).ok h
      refine ⟨ts, c', hbehind, Int.le_trans hcost ?_⟩
      split <;> omega
    | error e c' =>
      obtain ⟨ts, hbehind, hcost⟩ := (p.paid hends).error h
      exact ⟨ts, c', hbehind, hcost⟩
  obtain ⟨ts, c', hbehind, hcost⟩ := hpaid
  have hlength := hbehind.length_eq
  simp only [stepsPerToken, Cursor.tokens, List.length_cons] at hcost ⊢
  omega

/-- Every procedure of the parser, started at a position of a list of tokens that ends once,
keeps the cursor inside the list and restores the depth, does not repeat anything without
going on, and takes at most eight elementary steps for each token. -/
theorem disciplined (hends : EndsOnce tokens) (p : Procedure α) (hc : c.IsAt tokens pos) :
    p.Disciplined tokens pos c where
  ok {a c'} h := by
    obtain ⟨ts, hbehind, -⟩ := (p.paid (hc.endsOnce hends)).ok (by rwa [p.run_counted])
    refine ⟨pos + ts.length, Nat.le_add_right _ _, fun htakes => ?_, hc.behind hbehind,
      hbehind.depth⟩
    obtain ⟨t, us, hbehind'⟩ := p.exists_behind_cons htakes (hc.endsOnce hends) h
    have hlength := hbehind.length_eq
    have hless := hbehind'.length_lt
    omega
  error {e c'} h := by
    obtain ⟨ts, hbehind, -⟩ := (p.paid (hc.endsOnce hends)).error (by rwa [p.run_counted])
    exact ⟨pos + ts.length, Nat.le_add_right _ _, hc.behind hbehind, hbehind.depth⟩
  takesToken := IsRepeated.takesToken
  round_congr htakes r more more' hmore :=
    Repetition.round_congr (p.exists_behind_cons htakes (hc.endsOnce hends))
      fun hbehind => hmore (by simp) (hc.behind hbehind) hbehind.depth
  all_eq_round htakes r :=
    Repetition.all_eq_round (p.exists_behind_cons htakes) (hc.endsOnce hends)
  run_counted := p.run_counted
  cost_le := by
    have hle := p.cost_le (hc.endsOnce hends)
    rwa [hc.tokens, List.length_drop] at hle

/-- The tokens of a protocol without declarations. -/
def emptyProtocol : List Token :=
  [⟨.word "protocol", ⟨1, 1⟩, none⟩, ⟨.word "P", ⟨1, 10⟩, none⟩,
    ⟨.mark .openBrace, ⟨1, 12⟩, none⟩, ⟨.mark .closeBrace, ⟨1, 13⟩, none⟩,
    ⟨.endOfInput, ⟨1, 14⟩, none⟩]

theorem disciplined_emptyProtocol :
    EndsOnce emptyProtocol ∧ (Cursor.ofTokens emptyProtocol).IsAt emptyProtocol 0 ∧
      parseUnit.Disciplined emptyProtocol 0 (Cursor.ofTokens emptyProtocol) := by
  have hends : EndsOnce emptyProtocol :=
    ⟨emptyProtocol.take 4, ⟨.endOfInput, ⟨1, 14⟩, none⟩, rfl, rfl, by decide⟩
  have hstart : (Cursor.ofTokens emptyProtocol).IsAt emptyProtocol 0 := .of_tokens rfl
  exact ⟨hends, hstart, disciplined hends parseUnit hstart⟩

end Procedure

end IdlCompiler.Idl
