/-
# Cutting a text into tokens

The lexer walks over a text once, with a position and a documentation comment in hand.  Here its
result is said without a walk: the text is cut up into longest pieces, `CutsUp`, and the tokens
are read off the cuts, each with the lines and columns counted in all the text before it and with
the last documentation comment behind the token before it, `tokensBehind`.

Main statement: `tokenize_exactly`, for texts that are cut up to their end and for texts that are
not.  Both halves come from the walk, `exists_cutsUp_of_tokensFrom`, whose invariant is that
position and comment are those behind the cuts made so far.
-/
import IdlCompiler.Proofs.Lexemes

namespace IdlCompiler.Idl

/-! ## Cutting up -/

/-- A piece that has been cut from a text, and its characters. -/
structure Cut where
  piece : Piece
  text : List Char

/-- The characters of cuts, one after the other. -/
def textOf (cuts : List Cut) : List Char := cuts.flatMap Cut.text

/-- A text is cut up from its start into longest pieces, up to a rest. -/
inductive CutsUp : List Char → List Cut → List Char → Prop
  | nil (rest : List Char) : CutsUp rest [] rest
  | cons {s : Scan} {cuts : List Cut} {rest : List Char} (longest : s.IsLongest)
      (behind : CutsUp s.rest cuts rest) :
      CutsUp (s.taken ++ s.rest) (⟨s.piece, s.taken⟩ :: cuts) rest

variable {c : Char} {cs text rest rest' front taken : List Char} {cut : Cut}
  {cuts before behind : List Cut}
  {kind : TokenKind} {rounds : Nat} {tokens : List Token} {p q r : Position} {s : Scan}

theorem CutsUp.append {middle : List Char} (h : CutsUp text before middle)
    (h' : CutsUp middle behind rest) : CutsUp text (before ++ behind) rest := by
  induction h with
  | nil => exact h'
  | cons hlongest _ ih => exact .cons hlongest (ih h')

theorem IsPiece.ne_nil {piece : Piece} (h : IsPiece piece taken) : taken ≠ [] := by
  rintro rfl
  cases h with
  | blanks hpresent => exact hpresent rfl
  | token hlexeme =>
    generalize hnil : ([] : List Char) = cs at hlexeme
    cases hlexeme with
    | word hdotted => exact absurd (hnil ▸ hdotted) not_isDotted_nil
    | quotedWord => cases hnil
    | stringLiteral => cases hnil
    | numberLiteral _ hdigits => simp [hdigits.1] at hnil
    | mark => cases hnil

theorem CutsUp.ne_nil_of_mem (h : CutsUp text cuts rest) (hcut : cut ∈ cuts) : cut.text ≠ [] := by
  induction h with
  | nil => cases hcut
  | cons hlongest _ ih =>
    rcases List.mem_cons.1 hcut with rfl | hcut
    · exact hlongest.isPiece.ne_nil
    · exact ih hcut

/-- No piece starts at the start of a text. -/
def StartsNoPiece (text : List Char) : Prop :=
  ∀ piece taken, IsPiece piece taken → ¬ taken <+: text

theorem startsNoPiece_nil : StartsNoPiece [] := fun _ _ hpiece hprefix =>
  hpiece.ne_nil (List.prefix_nil.1 hprefix)

/-- A text can be cut up as far as possible in one way only. -/
theorem CutsUp.unique (h : CutsUp text before rest) (hend : StartsNoPiece rest)
    (h' : CutsUp text behind rest') (hend' : StartsNoPiece rest') :
    before = behind ∧ rest = rest' := by
  induction h generalizing behind with
  | nil rest =>
    cases h' with
    | nil => exact ⟨rfl, rfl⟩
    | cons hlongest => exact absurd (List.prefix_append _ _) (hend _ _ hlongest.isPiece)
  | @cons s cuts rest hlongest hcuts ih =>
    generalize htext : s.taken ++ s.rest = text at h'
    cases h' with
    | nil =>
      refine absurd ?_ (hend' _ _ hlongest.isPiece)
      rw [← htext]
      exact List.prefix_append _ _
    | @cons s' cuts' _ hlongest' hcuts' =>
      obtain ⟨c, cs, hs⟩ := List.exists_cons_of_ne_nil (l := s.taken ++ s.rest)
        (by simp [hlongest.isPiece.ne_nil])
      have hscan : scan c cs = .ok s := scan_eq_ok_iff.2 ⟨hlongest, hs⟩
      have hscan' : scan c cs = .ok s' := scan_eq_ok_iff.2 ⟨hlongest', htext ▸ hs⟩
      obtain rfl := Except.ok.inj (hscan.symm.trans hscan')
      obtain ⟨rfl, rfl⟩ := ih hend hcuts'
      exact ⟨rfl, rfl⟩

/-! ## Positions -/

/-- The position behind the first characters of a text. -/
def positionBehind (front : List Char) : Position where
  line := 1 + front.count '\n'
  column := 1 + (front.reverse.takeWhile (· ≠ '\n')).length

/-- The order of positions. -/
def Position.IsBefore (p q : Position) : Prop :=
  p.line < q.line ∨ p.line = q.line ∧ p.column < q.column

theorem next_positionBehind : (positionBehind front).next c = positionBehind (front ++ [c]) := by
  unfold Position.next positionBehind
  split
  · simp_all [Nat.add_assoc]
  · rename_i hc
    simp [hc, Nat.add_assoc]

theorem after_positionBehind :
    (positionBehind front).after taken = positionBehind (front ++ taken) := by
  induction taken generalizing front with
  | nil => rw [List.append_nil]; rfl
  | cons c taken ih =>
    rw [Position.after, List.foldl_cons, next_positionBehind, ← Position.after, ih,
      List.append_assoc, List.singleton_append]

theorem Position.IsBefore.trans (h : p.IsBefore q) (h' : q.IsBefore r) : p.IsBefore r := by
  unfold IsBefore at *
  omega

theorem Position.isBefore_next (p : Position) (c : Char) : p.IsBefore (p.next c) := by
  unfold IsBefore next
  split <;> simp

theorem Position.isBefore_after (p : Position) (h : taken ≠ []) : p.IsBefore (p.after taken) := by
  induction taken generalizing p with
  | nil => exact absurd rfl h
  | cons c taken ih =>
    rcases List.eq_nil_or_concat taken with rfl | ⟨_, _, rfl⟩
    · exact p.isBefore_next c
    · exact (p.isBefore_next c).trans (ih _ (by simp))

/-! ## Tokens -/

/-- The text of the documentation comment that a piece is. -/
def Piece.doc? : Piece → Option String
  | comment doc => doc
  | _ => none

/-- The kind of the token that a piece is. -/
def Piece.kind? : Piece → Option TokenKind
  | token kind => some kind
  | _ => none

/-- The documentation comments behind the last token of some cuts. -/
def docsBehind (front : List Cut) : List String :=
  ((front.reverse.takeWhile (·.piece.kind?.isNone)).reverse).filterMap (·.piece.doc?)

/-- The token that a cut behind other cuts is, if it is one. -/
def tokenBehind? (before : List Cut) (cut : Cut) : Option Token :=
  cut.piece.kind?.map fun kind =>
    ⟨kind, positionBehind (textOf before), (docsBehind before).getLast?⟩

/-- The tokens of cuts that stand behind other cuts, and the end of the text. -/
def tokensBehind (before : List Cut) : List Cut → List Token
  | [] => [⟨.endOfInput, positionBehind (textOf before), none⟩]
  | cut :: cuts => (tokenBehind? before cut).toList ++ tokensBehind (before ++ [cut]) cuts

theorem textOf_concat : textOf (before ++ [cut]) = textOf before ++ cut.text := by
  simp [textOf]

theorem docsBehind_concat_of_kind? (h : cut.piece.kind? = some kind) :
    docsBehind (before ++ [cut]) = [] := by
  simp [docsBehind, h]

theorem docsBehind_concat (h : cut.piece.kind? = none) :
    docsBehind (before ++ [cut]) = docsBehind before ++ cut.piece.doc?.toList := by
  simp only [docsBehind, List.reverse_append, List.reverse_singleton, List.singleton_append]
  rw [List.takeWhile_cons_of_pos (by simpa using h), List.reverse_cons, List.filterMap_append]
  cases h : cut.piece.doc? <;> simp [h]

theorem map_nil_append (result : Reading (List Token)) : result.map ([] ++ ·) = result := by
  cases result <;> rfl

/-- The walk goes on behind a piece as it started before it. -/
theorem tokensFrom_of_scan (hscan : scan c cs = .ok s) (hcut : cut = ⟨s.piece, s.taken⟩) :
    tokensFrom (rounds + 1) (positionBehind (textOf before)) (docsBehind before).getLast?
        (c :: cs) =
      (tokensFrom rounds (positionBehind (textOf (before ++ [cut])))
        (docsBehind (before ++ [cut])).getLast? s.rest).map
          ((tokenBehind? before cut).toList ++ ·) := by
  subst hcut
  rw [tokensFrom, hscan]
  dsimp only
  rw [after_positionBehind, textOf_concat]
  obtain ⟨piece, taken, rest⟩ := s
  cases piece with
  | blanks =>
    rw [docsBehind_concat rfl]
    simp only [Piece.doc?, Option.toList_none, List.append_nil]
    exact (map_nil_append _).symm
  | comment doc =>
    rw [docsBehind_concat rfl]
    cases doc with
    | none =>
      simp only [Piece.doc?, Option.toList_none, List.append_nil, Option.none_or]
      exact (map_nil_append _).symm
    | some doc =>
      simp only [Piece.doc?, Option.toList_some, List.getLast?_concat, Option.some_or]
      exact (map_nil_append _).symm
  | token kind =>
    rw [docsBehind_concat_of_kind? rfl]
    rfl

/-- The result for a text that is cut up behind other cuts, up to a rest where no piece starts. -/
def resultBehind (before cuts : List Cut) : List Char → Reading (List Token)
  | [] => .ok (tokensBehind before cuts)
  | c :: cs => .error (.fault (positionBehind (textOf (before ++ cuts))) (faultAt c cs))

theorem resultBehind_cons : resultBehind before (cut :: cuts) rest =
    (resultBehind (before ++ [cut]) cuts rest).map ((tokenBehind? before cut).toList ++ ·) := by
  cases rest with
  | nil => rfl
  | cons c rest => rw [resultBehind, resultBehind, List.append_cons]; rfl

/-- **The walk cuts a text up as far as possible.**  Position and comment in hand are those behind
the cuts already made. -/
theorem exists_cutsUp_of_tokensFrom (before : List Cut) (hrounds : text.length ≤ rounds) :
    ∃ cuts rest, CutsUp text cuts rest ∧ StartsNoPiece rest ∧
      tokensFrom rounds (positionBehind (textOf before)) (docsBehind before).getLast? text =
        resultBehind before cuts rest := by
  induction rounds generalizing text before with
  | zero =>
    obtain rfl := List.eq_nil_of_length_eq_zero (Nat.le_zero.1 hrounds)
    exact ⟨[], [], .nil _, startsNoPiece_nil, rfl⟩
  | succ rounds ih =>
    cases text with
    | nil => exact ⟨[], [], .nil _, startsNoPiece_nil, rfl⟩
    | cons c cs =>
      cases hscan : scan c cs with
      | error fault =>
        obtain ⟨hnone, rfl⟩ := scan_eq_error_iff.1 hscan
        refine ⟨[], c :: cs, .nil _, hnone, ?_⟩
        rw [tokensFrom, hscan, resultBehind, List.append_nil]
      | ok s =>
        have htaken := (scan_eq_ok_iff.1 hscan).1.isPiece.ne_nil
        have hlength := congrArg List.length (Scan.taken_append_rest hscan)
        have hpos := List.length_pos_iff.2 htaken
        rw [List.length_append, List.length_cons] at hlength
        rw [List.length_cons] at hrounds
        have hrest : s.rest.length ≤ rounds := by omega
        obtain ⟨cuts, rest, hcuts, hend, hresult⟩ :=
          @ih s.rest (before ++ [⟨s.piece, s.taken⟩]) hrest
        refine ⟨⟨s.piece, s.taken⟩ :: cuts, rest, ?_, hend, ?_⟩
        · rw [← Scan.taken_append_rest hscan]
          exact .cons (scan_eq_ok_iff.1 hscan).1 hcuts
        rw [tokensFrom_of_scan hscan rfl, hresult, resultBehind_cons]

theorem exists_cutsUp_of_tokenize (text : String) : ∃ cuts rest, CutsUp text.toList cuts rest ∧
    StartsNoPiece rest ∧ tokenize text = resultBehind [] cuts rest :=
  exists_cutsUp_of_tokensFrom [] (Nat.le_refl _)

/-- What a text is cut up into determines its tokens. -/
theorem tokenize_of_cutsUp {text : String} (h : CutsUp text.toList cuts rest)
    (hend : StartsNoPiece rest) : tokenize text = resultBehind [] cuts rest := by
  obtain ⟨cuts', rest', h', hend', hresult⟩ := exists_cutsUp_of_tokenize text
  obtain ⟨rfl, rfl⟩ := h.unique hend h' hend'
  exact hresult

theorem exists_of_mem_tokensBehind {token : Token} (h : token ∈ tokensBehind before cuts) :
    ∃ more, token.position = positionBehind (textOf before ++ more) := by
  induction cuts generalizing before with
  | nil =>
    obtain rfl := List.mem_singleton.1 h
    exact ⟨[], by rw [List.append_nil]⟩
  | cons cut cuts ih =>
    rcases List.mem_append.1 h with h | h
    · obtain ⟨kind, -, rfl⟩ := Option.map_eq_some_iff.1 (Option.mem_toList.1 h)
      exact ⟨[], by rw [List.append_nil]⟩
    · obtain ⟨more, hmore⟩ := ih h
      exact ⟨cut.text ++ more, by rw [hmore, textOf_concat, List.append_assoc]⟩

end IdlCompiler.Idl
