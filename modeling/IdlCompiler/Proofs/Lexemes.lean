/-
# Lexemes

Which texts are pieces of an interface definition, said without a lexer: a piece is a run of
blanks, a comment or the lexeme of a token, `IsPiece`.  Several pieces may start at one place,
such as `a`, `a.b` and `a.b.c`; the lexer takes the longest of them, and it stops where no piece
starts.

Main statements: `scan_eq_ok_iff`, what the lexer takes, and `scan_eq_error_iff`, where it stops.
Both come from two facts: what is taken is a piece, `isPiece_of_scan`, and where a piece starts at
least this piece is taken, `IsPiece.exists_scan`.
-/
import IdlCompiler.Idl.Lexer

namespace IdlCompiler.Idl

/-! ## Pieces of texts -/

/-- One digit or more. -/
def AreDigits (cs : List Char) : Prop := cs ≠ [] ∧ ∀ c ∈ cs, c.isDigit

/-- A point and digits, or nothing. -/
inductive IsFraction : List Char → Prop
  | none : IsFraction []
  | some {digits : List Char} (areDigits : AreDigits digits) : IsFraction ('.' :: digits)

/-- The mark of an exponent, a sign if there is one, and digits; or nothing. -/
inductive IsExponent : List Char → Prop
  | none : IsExponent []
  | some {e : Char} {sign digits : List Char} (mark : e = 'e' ∨ e = 'E')
      (isSign : sign = [] ∨ sign = ['+'] ∨ sign = ['-']) (areDigits : AreDigits digits) :
      IsExponent (e :: (sign ++ digits))

/-- The characters of a string literal between its quotation marks.  A backslash takes the next
character with it, which is no line feed. -/
inductive IsQuotable : List Char → Prop
  | nil : IsQuotable []
  | plain {c : Char} {cs : List Char} (quote : c ≠ '"') (backslash : c ≠ '\\')
      (tail : IsQuotable cs) : IsQuotable (c :: cs)
  | escape {c : Char} {cs : List Char} (line : c ≠ '\n') (tail : IsQuotable cs) :
      IsQuotable ('\\' :: c :: cs)

/-- The lexemes of tokens. -/
inductive IsLexeme : TokenKind → List Char → Prop
  | word {cs : List Char} (dotted : Name.isDotted (String.ofList cs)) :
      IsLexeme (.word (String.ofList cs)) cs
  | quotedWord {cs : List Char} (identifier : Name.isIdentifierChars cs) :
      IsLexeme (.word (String.ofList cs)) ('\x60' :: (cs ++ ['\x60']))
  | stringLiteral {cs : List Char} (quotable : IsQuotable cs) :
      IsLexeme (.stringLiteral (String.ofList ('"' :: (cs ++ ['"'])))) ('"' :: (cs ++ ['"']))
  | numberLiteral {sign digits fraction exponent : List Char} (isSign : sign = [] ∨ sign = ['-'])
      (areDigits : AreDigits digits) (isFraction : IsFraction fraction)
      (isExponent : IsExponent exponent) :
      IsLexeme (.numberLiteral (String.ofList (sign ++ (digits ++ fraction ++ exponent))))
        (sign ++ (digits ++ fraction ++ exponent))
  | mark (mark : Mark) : IsLexeme (.mark mark) [mark.char]

/-- The body of a block comment: its end does not come earlier than behind it. -/
def IsCommentBody (body : List Char) : Prop :=
  ∀ before behind, body ++ ['*', '/'] = before ++ '*' :: '/' :: behind → behind = []

/-- The pieces of texts: runs of blanks, comments up to the end of their line or of their own,
and lexemes. -/
inductive IsPiece : Piece → List Char → Prop
  | blanks {cs : List Char} (present : cs ≠ []) (skipped : ∀ c ∈ cs, isSkipped c) :
      IsPiece .blanks cs
  | lineComment {body : List Char} (line : '\n' ∉ body) :
      IsPiece (.comment none) ('/' :: '/' :: body)
  | blockComment {body : List Char} (ends : IsCommentBody body) :
      IsPiece (.comment (docOf? body)) ('/' :: '*' :: (body ++ ['*', '/']))
  | token {kind : TokenKind} {cs : List Char} (lexeme : IsLexeme kind cs) :
      IsPiece (.token kind) cs

/-- A piece in front of a rest, where no longer piece starts. -/
structure Scan.IsLongest (s : Scan) : Prop where
  isPiece : IsPiece s.piece s.taken
  longest : ∀ piece taken, IsPiece piece taken → taken <+: s.taken ++ s.rest →
    taken.length ≤ s.taken.length

variable {c : Char} {cs rest taken body digits fraction exponent : List Char}

/-! ## Dotted names -/

/-- Tells whether characters can stand behind the first one of a dotted name. -/
def continuesName (cs : List Char) : Bool :=
  match Text.splitOn '.' cs with
  | [] => false
  | part :: parts => part.all Name.isPart && parts.all Name.isIdentifierChars

theorem isDotted_ofList :
    Name.isDotted (String.ofList cs) = (Text.splitOn '.' cs).all Name.isIdentifierChars := by
  rw [Name.isDotted, Name.segments, String.toList_ofList, List.all_map]
  congr 1
  funext part
  rw [Function.comp, Name.isIdentifier, String.toList_ofList]

theorem continuesName_dot : continuesName ('.' :: cs) = Name.isDotted (String.ofList cs) := by
  rw [isDotted_ofList, continuesName, Text.splitOn, if_pos rfl]
  rfl

theorem continuesName_cons (hc : c ≠ '.') :
    continuesName (c :: cs) = (Name.isPart c && continuesName cs) := by
  rw [continuesName, continuesName, Text.splitOn, if_neg hc]
  cases hparts : Text.splitOn '.' cs with
  | nil => exact absurd hparts (Text.splitOn_ne_nil _ _)
  | cons part parts => simp [Bool.and_assoc]

theorem isDotted_cons :
    Name.isDotted (String.ofList (c :: cs)) = (Name.isStart c && continuesName cs) := by
  rw [isDotted_ofList, continuesName, Text.splitOn]
  by_cases hc : c = '.'
  · subst hc
    simp [Name.isIdentifierChars, Name.isStart]
  · rw [if_neg hc]
    cases hparts : Text.splitOn '.' cs with
    | nil => exact absurd hparts (Text.splitOn_ne_nil _ _)
    | cons part parts => simp [Name.isIdentifierChars, Bool.and_assoc]

theorem not_isDotted_nil : ¬ Name.isDotted (String.ofList []) := by decide

theorem ne_dot_of_isPart (h : Name.isPart c) : c ≠ '.' := by
  rintro rfl
  exact absurd h (by decide)

theorem continuesName_wordTail (cs : List Char) : continuesName (wordTail cs).1 := by
  fun_induction wordTail cs with
  | case1 => rfl
  | case2 c cs hstart taken rest htail ih =>
    rw [htail] at ih
    rw [continuesName_dot, isDotted_cons, hstart]
    exact ih
  | case3 => rfl
  | case4 c cs _ hpart taken rest htail ih =>
    rw [htail] at ih
    rw [continuesName_cons (ne_dot_of_isPart hpart), hpart]
    exact ih
  | case5 => rfl

/-- All characters that can go on with a name are taken. -/
theorem wordTail_append_of_continuesName (h : continuesName cs) :
    wordTail (cs ++ rest) = (cs ++ (wordTail rest).1, (wordTail rest).2) := by
  fun_induction wordTail cs with
  | case1 => rfl
  | case2 c cs hstart taken more htail ih =>
    rw [continuesName_dot, isDotted_cons, hstart] at h
    rw [List.cons_append, List.cons_append, wordTail, if_pos hstart, ih h]
    rfl
  | case3 c cs hstart =>
    rw [continuesName_dot, isDotted_cons, Bool.and_eq_true] at h
    exact absurd h.1 hstart
  | case4 c cs hdot hpart taken more htail ih =>
    rw [continuesName_cons (ne_dot_of_isPart hpart), hpart] at h
    have hother : ∀ d ds, c = '.' → cs ++ rest = d :: ds → False := fun d ds hc =>
      absurd hc (ne_dot_of_isPart hpart)
    rw [List.cons_append, wordTail.eq_3 _ _ hother, if_pos hpart, ih h]
    rfl
  | case5 c cs hdot hpart =>
    by_cases hc : c = '.'
    · subst hc
      cases cs with
      | nil => exact absurd h (by decide)
      | cons d ds => exact absurd rfl (hdot d ds rfl)
    · simp [continuesName_cons hc, hpart] at h

/-! ## Numbers -/

theorem areDigits_digitsTail (h : (digitsTail cs).1 ≠ []) : AreDigits (digitsTail cs).1 :=
  ⟨h, Text.forall_mem_cut⟩

theorem digitsTail_append_of_areDigits (h : AreDigits digits) :
    digitsTail (digits ++ rest) = (digits ++ (digitsTail rest).1, (digitsTail rest).2) :=
  Text.cut_append_of_forall h.2 rest

theorem digitsTail_cons_of_not_isDigit (hc : ¬ c.isDigit) :
    digitsTail (c :: cs) = ([], c :: cs) := by
  simp [digitsTail, Text.cut, hc]

theorem fractionTail_dot : fractionTail ('.' :: cs) =
    if (digitsTail cs).1 = [] then ([], '.' :: cs)
    else ('.' :: (digitsTail cs).1, (digitsTail cs).2) := by
  rw [fractionTail]
  rcases digitsTail cs with ⟨_ | ⟨d, ds⟩, more⟩ <;> rfl

theorem fractionTail_cons (hc : c ≠ '.') : fractionTail (c :: cs) = ([], c :: cs) := by
  rw [fractionTail]
  simp_all

theorem exponentTail_mark (hc : c = 'e' ∨ c = 'E') : exponentTail (c :: cs) =
    if (digitsTail (signTail cs).2).1 = [] then ([], c :: cs)
    else (c :: (signTail cs).1 ++ (digitsTail (signTail cs).2).1,
      (digitsTail (signTail cs).2).2) := by
  rw [exponentTail, if_pos (by simpa using hc)]
  dsimp only
  rcases digitsTail (signTail cs).2 with ⟨_ | ⟨d, ds⟩, more⟩ <;> rfl

theorem signTail_of_isDigit (hc : c.isDigit) : signTail (c :: cs) = ([], c :: cs) := by
  unfold signTail
  split <;> simp_all

theorem isFraction_fractionTail (cs : List Char) : IsFraction (fractionTail cs).1 := by
  unfold fractionTail
  split
  · rename_i more
    change IsFraction (fractionTail ('.' :: more)).1
    rw [fractionTail_dot]
    split
    · exact .none
    · rename_i hdigits
      exact .some (areDigits_digitsTail hdigits)
  · exact .none

theorem isExponent_exponentTail (cs : List Char) : IsExponent (exponentTail cs).1 := by
  cases cs with
  | nil => exact .none
  | cons c cs =>
    by_cases hc : c = 'e' ∨ c = 'E'
    · rw [exponentTail_mark hc]
      split
      · exact .none
      · rename_i hdigits
        refine .some hc ?_ (areDigits_digitsTail hdigits)
        unfold signTail
        split <;> simp
    · rw [exponentTail, if_neg (by simpa using hc)]
      exact .none

/-- At least the exponent is taken where one starts. -/
theorem exists_exponentTail (h : IsExponent exponent) (rest : List Char) :
    ∃ more, (exponentTail (exponent ++ rest)).1 = exponent ++ more := by
  cases h with
  | none => exact ⟨_, rfl⟩
  | @some e sign digits hmark hsign hdigits =>
    have hrest : signTail (sign ++ (digits ++ rest)) = (sign, digits ++ rest) := by
      rcases hsign with rfl | rfl | rfl
      · obtain ⟨d, ds, rfl⟩ := List.exists_cons_of_ne_nil hdigits.1
        exact signTail_of_isDigit (hdigits.2 d (by simp))
      · rfl
      · rfl
    refine ⟨(digitsTail rest).1, ?_⟩
    rw [List.cons_append, List.append_assoc, exponentTail_mark hmark, hrest,
      digitsTail_append_of_areDigits hdigits, if_neg (by simp [hdigits.1])]
    simp

theorem not_isDigit_of_isExponent (h : IsExponent (c :: cs)) : ¬ c.isDigit ∧ c ≠ '.' := by
  cases h with
  | some hmark => rcases hmark with rfl | rfl <;> decide

/-- At least the number is taken where one starts. -/
theorem exists_numberTail (hdigits : AreDigits digits) (hfraction : IsFraction fraction)
    (hexponent : IsExponent exponent) (rest : List Char) :
    ∃ more, (numberTail (digits ++ (fraction ++ (exponent ++ rest)))).1 =
      digits ++ (fraction ++ (exponent ++ more)) := by
  obtain ⟨more, hmore⟩ := exists_exponentTail hexponent rest
  simp only [numberTail, digitsTail_append_of_areDigits hdigits]
  cases hfraction with
  | none =>
    cases exponent with
    | nil => exact ⟨_, by simp only [List.nil_append, List.append_assoc]; rfl⟩
    | cons e cs =>
      obtain ⟨hdigit, hdot⟩ := not_isDigit_of_isExponent hexponent
      refine ⟨more, ?_⟩
      rw [List.nil_append, List.cons_append, digitsTail_cons_of_not_isDigit hdigit,
        fractionTail_cons hdot, ← List.cons_append, hmore]
      simp
  | @some places hplaces =>
    have hfraction : fractionTail ('.' :: places ++ (exponent ++ rest)) =
        ('.' :: places ++ (digitsTail (exponent ++ rest)).1,
          (digitsTail (exponent ++ rest)).2) := by
      rw [List.cons_append, fractionTail_dot, digitsTail_append_of_areDigits hplaces,
        if_neg (by simp [hplaces.1])]
      rfl
    rw [List.cons_append, digitsTail_cons_of_not_isDigit (by decide), ← List.cons_append,
      hfraction]
    cases exponent with
    | nil => exact ⟨_, by simp only [List.nil_append, List.append_assoc, List.append_nil]; rfl⟩
    | cons e cs =>
      have hnone : digitsTail (e :: cs ++ rest) = ([], e :: cs ++ rest) :=
        digitsTail_cons_of_not_isDigit (not_isDigit_of_isExponent hexponent).1
      refine ⟨more, ?_⟩
      rw [hnone, hmore]
      simp

/-! ## String literals and comments -/

theorem IsQuotable.append (h : IsQuotable cs) (h' : IsQuotable taken) :
    IsQuotable (cs ++ taken) := by
  induction h with
  | nil => exact h'
  | plain hquote hbackslash _ ih => exact .plain hquote hbackslash ih
  | escape hline _ ih => exact .escape hline ih

theorem stringTail?_of_isQuotable (h : IsQuotable cs) (rest : List Char) :
    stringTail? (cs ++ '"' :: rest) = some (cs ++ ['"'], rest) := by
  induction h with
  | nil => rfl
  | @plain c cs hquote hbackslash _ ih =>
    have hcons : stringTail? (c :: (cs ++ '"' :: rest)) =
        (stringTail? (cs ++ '"' :: rest)).map fun tail => (c :: tail.1, tail.2) := by
      rw [stringTail?]
      all_goals simp_all
    rw [List.cons_append, hcons, ih]
    rfl
  | @escape c cs hline _ ih =>
    rw [List.cons_append, List.cons_append, stringTail?, if_neg hline, ih]
    rfl

theorem exists_of_stringTail? (h : stringTail? cs = some (taken, rest)) :
    ∃ inside, taken = inside ++ ['"'] ∧ IsQuotable inside := by
  fun_induction stringTail? cs generalizing taken rest with
  | case1 => cases h
  | case2 => cases h; exact ⟨[], rfl, .nil⟩
  | case3 => cases h
  | case4 => cases h
  | case5 c cs hline ih =>
    obtain ⟨⟨t, r⟩, ht, he⟩ := Option.map_eq_some_iff.1 h
    cases he
    obtain ⟨inside, rfl, hinside⟩ := ih ht
    exact ⟨'\\' :: c :: inside, rfl, .escape hline hinside⟩
  | case6 c cs hquote hend hescape ih =>
    obtain ⟨⟨t, r⟩, ht, he⟩ := Option.map_eq_some_iff.1 h
    cases he
    obtain ⟨inside, rfl, hinside⟩ := ih ht
    refine ⟨c :: inside, rfl, .plain (fun hc => hquote hc) (fun hc => ?_) hinside⟩
    -- a backslash takes a character with it
    cases cs with
    | nil => exact hend hc rfl
    | cons d ds => exact hescape d ds hc rfl

theorem isCommentBody_nil : IsCommentBody [] := by
  intro before behind h
  have hlength := congrArg List.length h
  simp only [List.length_append, List.length_cons, List.length_nil] at hlength
  exact List.eq_nil_of_length_eq_zero (by omega)

theorem isCommentBody_cons_iff : IsCommentBody (c :: cs) ↔
    IsCommentBody cs ∧ ¬ (c = '*' ∧ ∃ behind, cs ++ ['*', '/'] = '/' :: behind) := by
  constructor
  · refine fun h => ⟨fun before behind heq => h (c :: before) behind (by simp [heq]), ?_⟩
    rintro ⟨rfl, behind, heq⟩
    obtain rfl := h [] behind (by simp [heq])
    have hlength := congrArg List.length heq
    simp at hlength
  · rintro ⟨h, hends⟩ (_ | ⟨b, before⟩) behind heq
    · rw [List.cons_append, List.nil_append, List.cons.injEq] at heq
      exact absurd ⟨heq.1, behind, heq.2⟩ hends
    · rw [List.cons_append, List.cons_append, List.cons.injEq] at heq
      exact h before behind heq.2

theorem commentTail?_of_isCommentBody (h : IsCommentBody body) (rest : List Char) :
    commentTail? (body ++ '*' :: '/' :: rest) = some (body, rest) := by
  induction body with
  | nil => rfl
  | cons c body ih =>
    obtain ⟨hbody, hends⟩ := isCommentBody_cons_iff.1 h
    have hother : ∀ cs, c = '*' → body ++ '*' :: '/' :: rest = '/' :: cs → False := by
      intro cs hc heq
      refine hends ⟨hc, ?_⟩
      cases body with
      | nil => cases heq
      | cons b body => exact ⟨_, by rw [List.cons_append, (List.cons.inj heq).1]⟩
    rw [List.cons_append, commentTail?.eq_3 _ _ hother, ih hbody]
    rfl

theorem isCommentBody_of_commentTail? (h : commentTail? cs = some (body, rest)) :
    IsCommentBody body := by
  fun_induction commentTail? cs generalizing body rest with
  | case1 => cases h
  | case2 => cases h; exact isCommentBody_nil
  | case3 c cs hends ih =>
    obtain ⟨⟨b, r⟩, hb, he⟩ := Option.map_eq_some_iff.1 h
    cases he
    refine isCommentBody_cons_iff.2 ⟨ih hb, ?_⟩
    rintro ⟨hc, behind, heq⟩
    -- the comment would end before `cs`
    refine hends (behind ++ rest) hc ?_
    rw [← commentTail?_append hb, ← List.cons_append, ← heq]
    simp

/-! ## What the lexer takes -/

/-- Tells whether a longer piece of a kind may go on with a character. -/
def Piece.mayGoOnWith : Piece → Char → Bool
  | blanks, c => isSkipped c
  | comment _, c => c ≠ '\n'
  | token (.word _), c => Name.isPart c || c = '.'
  | token (.numberLiteral _), c => c.isDigit || c ∈ ['.', 'e', 'E', '+', '-']
  | token _, _ => false

theorem mayGoOnWith_of_mem_wordTail {text : String} (h : c ∈ (wordTail cs).1) :
    (Piece.token (.word text)).mayGoOnWith c := by
  fun_induction wordTail cs with
  | case1 => cases h
  | case2 d cs hstart taken rest htail ih =>
    rw [htail] at ih
    rcases List.mem_cons.1 h with rfl | h
    · simp [Piece.mayGoOnWith]
    rcases List.mem_cons.1 h with rfl | h
    · simp [Piece.mayGoOnWith, Name.isPart_of_isStart hstart]
    · exact ih h
  | case3 => cases h
  | case4 d cs _ hpart taken rest htail ih =>
    rw [htail] at ih
    rcases List.mem_cons.1 h with rfl | h
    · simp [Piece.mayGoOnWith, hpart]
    · exact ih h
  | case5 => cases h

theorem mayGoOnWith_of_mem_numberTail {text : String} (h : c ∈ (numberTail cs).1) :
    (Piece.token (.numberLiteral text)).mayGoOnWith c := by
  have hdigit {digits : List Char} (hdigits : AreDigits digits) (hc : c ∈ digits) :
      (Piece.token (.numberLiteral text)).mayGoOnWith c := by
    simp [Piece.mayGoOnWith, hdigits.2 c hc]
  simp only [numberTail, List.mem_append] at h
  rcases h with (h | h) | h
  · exact hdigit (areDigits_digitsTail (List.ne_nil_of_mem h)) h
  · have hfraction := isFraction_fractionTail (digitsTail cs).2
    generalize (fractionTail (digitsTail cs).2).1 = fraction at h hfraction
    cases hfraction with
    | none => cases h
    | some hdigits =>
      rcases List.mem_cons.1 h with rfl | h
      · simp [Piece.mayGoOnWith]
      · exact hdigit hdigits h
  · have hexponent := isExponent_exponentTail (fractionTail (digitsTail cs).2).2
    generalize (exponentTail (fractionTail (digitsTail cs).2).2).1 = exponent at h hexponent
    cases hexponent with
    | none => cases h
    | some hmark hsign hdigits =>
      rcases List.mem_cons.1 h with rfl | h
      · rcases hmark with rfl | rfl <;> simp [Piece.mayGoOnWith]
      rcases List.mem_append.1 h with h | h
      · rcases hsign with rfl | rfl | rfl <;> simp_all [Piece.mayGoOnWith]
      · exact hdigit hdigits h

theorem not_isSkipped_of_isPart (h : Name.isPart c) : ¬ isSkipped c :=
  Name.forall_isPart (P := fun c => ¬ isSkipped c) (by decide +kernel) h

theorem scan_of_isSkipped (h : isSkipped c) : scan c cs =
    .ok ⟨.blanks, c :: (Text.cut isSkipped cs).1, (Text.cut isSkipped cs).2⟩ := by
  rw [scan, if_pos h]

theorem scan_of_isStart (h : Name.isStart c) : scan c cs =
    .ok ⟨.token (.word (String.ofList (c :: (wordTail cs).1))), c :: (wordTail cs).1,
      (wordTail cs).2⟩ := by
  rw [scan, if_neg (not_isSkipped_of_isPart (Name.isPart_of_isStart h))]
  unfold scanToken
  rw [if_pos h]

theorem scan_of_isDigit (h : c.isDigit) : scan c cs =
    .ok ⟨.token (.numberLiteral (String.ofList (numberTail (c :: cs)).1)), (numberTail (c :: cs)).1,
      (numberTail (c :: cs)).2⟩ := by
  have hstart : ¬ Name.isStart c := fun hstart => by
    rw [Name.not_isDigit_of_isStart hstart] at h
    cases h
  rw [scan, if_neg (not_isSkipped_of_isPart (Name.isPart_of_isDigit h))]
  unfold scanToken
  rw [if_neg hstart, if_pos h]

theorem scan_of_cut (hcut : Text.cut Name.isPart cs = (taken, '\x60' :: rest))
    (h : Name.isIdentifierChars taken) : scan '\x60' cs =
      .ok ⟨.token (.word (String.ofList taken)), '\x60' :: taken ++ ['\x60'], rest⟩ := by
  change scanToken '\x60' cs = _
  unfold scanToken
  rw [if_neg (by decide), if_neg (by decide)]
  dsimp only
  rw [hcut]
  exact if_pos h

theorem scan_of_stringTail? (h : stringTail? cs = some (taken, rest)) : scan '"' cs =
    .ok ⟨.token (.stringLiteral (String.ofList ('"' :: taken))), '"' :: taken, rest⟩ := by
  change scanToken '"' cs = _
  unfold scanToken
  rw [if_neg (by decide), if_neg (by decide), h]
  rfl

theorem scan_of_commentTail? (h : commentTail? cs = some (taken, rest)) : scan '/' ('*' :: cs) =
    .ok ⟨.comment (docOf? taken), '/' :: '*' :: taken ++ ['*', '/'], rest⟩ := by
  change scanToken '/' ('*' :: cs) = _
  unfold scanToken
  rw [if_neg (by decide), if_neg (by decide)]
  simp [h]

/-- A text that starts with a digit, behind a sign or not, has a number there. -/
theorem isLexeme_numberTail {sign : List Char} (hsign : sign = [] ∨ sign = ['-'])
    (h : c.isDigit) : IsLexeme (.numberLiteral (String.ofList (sign ++ (numberTail (c :: cs)).1)))
      (sign ++ (numberTail (c :: cs)).1) :=
  .numberLiteral hsign (areDigits_digitsTail (by simp [digitsTail, Text.cut, h]))
    (isFraction_fractionTail _) (isExponent_exponentTail _)

/-- **What the lexer takes is a piece.** -/
theorem isPiece_of_scan {s : Scan} (h : scan c cs = .ok s) : IsPiece s.piece s.taken := by
  unfold scan at h
  split at h
  · rename_i hskipped
    obtain rfl := Except.ok.inj h
    refine .blanks (List.cons_ne_nil _ _) fun d hd => ?_
    rcases List.mem_cons.1 hd with rfl | hd
    · exact hskipped
    · exact Text.forall_mem_cut d hd
  unfold scanToken at h
  split at h
  · rename_i hstart
    obtain rfl := Except.ok.inj h
    refine .token (.word ?_)
    rw [isDotted_cons, hstart, continuesName_wordTail]
    rfl
  split at h
  · rename_i hdigit
    obtain rfl := Except.ok.inj h
    exact .token (isLexeme_numberTail (.inl rfl) hdigit)
  split at h
  · split at h
    · rename_i hdigit
      obtain rfl := Except.ok.inj h
      exact .token (isLexeme_numberTail (.inr rfl) hdigit)
    · cases h
  · split at h
    · rename_i htail
      obtain rfl := Except.ok.inj h
      obtain ⟨inside, rfl, hinside⟩ := exists_of_stringTail? htail
      exact .token (.stringLiteral hinside)
    · cases h
  · dsimp only at h
    split at h
    · split at h
      · rename_i hidentifier
        obtain rfl := Except.ok.inj h
        exact .token (.quotedWord hidentifier)
      · cases h
    · cases h
  · obtain rfl := Except.ok.inj h
    refine .lineComment fun hline => ?_
    simpa using Text.forall_mem_cut _ hline
  · split at h
    · rename_i hbody
      obtain rfl := Except.ok.inj h
      exact .blockComment (isCommentBody_of_commentTail? hbody)
    · cases h
  · split at h
    · rename_i m hm
      obtain rfl := Except.ok.inj h
      rw [← Mark.char_of_ofChar? hm]
      exact .token (.mark m)
    · cases h

/-- **Where a piece starts, at least this piece is taken**, and only what it may go on with. -/
theorem IsPiece.exists_scan {piece : Piece} (h : IsPiece piece taken) (rest : List Char) :
    ∃ c cs s more, taken ++ rest = c :: cs ∧ scan c cs = .ok s ∧ s.taken = taken ++ more ∧
      (more = [] → s.piece = piece) ∧ ∀ c ∈ more, piece.mayGoOnWith c := by
  cases h with
  | blanks hpresent hskipped =>
    obtain ⟨c, cs, rfl⟩ := List.exists_cons_of_ne_nil hpresent
    obtain ⟨hc, hcs⟩ := List.forall_mem_cons.1 hskipped
    refine ⟨c, cs ++ rest, _, (Text.cut isSkipped rest).1, rfl, scan_of_isSkipped hc, ?_,
      fun _ => rfl, Text.forall_mem_cut⟩
    rw [Text.cut_append_of_forall hcs, List.cons_append]
  | @lineComment body hline =>
    have hbody : ∀ c ∈ body, decide (c ≠ '\n') := fun c hc =>
      decide_eq_true fun heq => hline (heq ▸ hc)
    refine ⟨'/', '/' :: (body ++ rest), _, (Text.cut (· ≠ '\n') rest).1, rfl, rfl, ?_,
      fun _ => rfl, Text.forall_mem_cut⟩
    rw [Text.cut_append_of_forall hbody]
    rfl
  | @blockComment body hends =>
    have hscan := scan_of_commentTail? (commentTail?_of_isCommentBody hends rest)
    exact ⟨'/', _, _, [], by simp, hscan, by simp, fun _ => rfl, nofun⟩
  | token hlexeme =>
    cases hlexeme with
    | word hdotted =>
      cases taken with
      | nil => exact absurd hdotted not_isDotted_nil
      | cons c cs =>
        rw [isDotted_cons, Bool.and_eq_true] at hdotted
        refine ⟨c, cs ++ rest, _, (wordTail rest).1, rfl, scan_of_isStart hdotted.1, ?_,
          fun hmore => ?_, fun _ => mayGoOnWith_of_mem_wordTail⟩
        · simp [wordTail_append_of_continuesName hdotted.2]
        · simp [wordTail_append_of_continuesName hdotted.2, hmore]
    | @quotedWord cs hidentifier =>
      have hcut : Text.cut Name.isPart (cs ++ '\x60' :: rest) = (cs, '\x60' :: rest) := by
        have hparts := ((Name.isIdentifierChars_iff cs).1 hidentifier).2
        rw [Text.cut_append_of_forall hparts, show Text.cut Name.isPart ('\x60' :: rest) =
          ([], '\x60' :: rest) from rfl, List.append_nil]
      exact ⟨'\x60', cs ++ '\x60' :: rest, _, [], by simp, scan_of_cut hcut hidentifier, by simp,
        fun _ => rfl, nofun⟩
    | @stringLiteral cs hquotable =>
      have hscan := scan_of_stringTail? (stringTail?_of_isQuotable hquotable rest)
      exact ⟨'"', _, _, [], by simp, hscan, by simp, fun _ => rfl, nofun⟩
    | @numberLiteral sign digits fraction exponent hsign hdigits hfraction hexponent =>
      obtain ⟨more, hmore⟩ := exists_numberTail hdigits hfraction hexponent rest
      have hgoesOn (text : String) :
          ∀ c ∈ more, (Piece.token (.numberLiteral text)).mayGoOnWith c := by
        intro c hc
        have hmem : c ∈ (numberTail (digits ++ (fraction ++ (exponent ++ rest)))).1 := by
          rw [hmore]
          simp [hc]
        exact mayGoOnWith_of_mem_numberTail hmem
      obtain ⟨d, ds, rfl⟩ := List.exists_cons_of_ne_nil hdigits.1
      have hd : d.isDigit := hdigits.2 d (by simp)
      rw [List.cons_append] at hmore
      rcases hsign with rfl | rfl
      · refine ⟨d, ds ++ (fraction ++ (exponent ++ rest)), _, more, by simp, scan_of_isDigit hd,
          by simp [hmore], ?_, hgoesOn _⟩
        rintro rfl
        simp [hmore]
      · refine ⟨'-', d :: (ds ++ (fraction ++ (exponent ++ rest))), _, more, by simp,
          if_pos hd, by simp [hmore], ?_, hgoesOn _⟩
        rintro rfl
        simp [hmore]
    | mark m =>
      refine ⟨m.char, rest, ⟨.token (.mark m), [m.char], rest⟩, [], rfl, ?_, rfl, fun _ => rfl,
        nofun⟩
      cases m <;> rfl

/-- **The lexer takes the longest piece that a text starts with.** -/
theorem scan_eq_ok_iff {s : Scan} :
    scan c cs = .ok s ↔ s.IsLongest ∧ s.taken ++ s.rest = c :: cs := by
  constructor
  · intro h
    refine ⟨⟨isPiece_of_scan h, fun piece taken hpiece hprefix => ?_⟩, Scan.taken_append_rest h⟩
    rw [Scan.taken_append_rest h] at hprefix
    obtain ⟨behind, hbehind⟩ := hprefix
    obtain ⟨c', cs', s', more, htext, hscan, htaken, -, -⟩ := hpiece.exists_scan behind
    obtain ⟨rfl, rfl⟩ := List.cons.inj (hbehind.symm.trans htext)
    obtain rfl := Except.ok.inj (h.symm.trans hscan)
    simp [htaken]
  · rintro ⟨⟨hpiece, hlongest⟩, htext⟩
    obtain ⟨c', cs', s', more, htext', hscan, htaken, hsame, -⟩ := hpiece.exists_scan s.rest
    obtain ⟨rfl, rfl⟩ := List.cons.inj (htext.symm.trans htext')
    have hwhole := Scan.taken_append_rest hscan
    have hlength := hlongest s'.piece s'.taken (isPiece_of_scan hscan)
      (by rw [htext, ← hwhole]; exact List.prefix_append _ _)
    obtain rfl : more = [] := by
      rw [htaken, List.length_append] at hlength
      exact List.eq_nil_of_length_eq_zero (by omega)
    rw [List.append_nil] at htaken
    have hrest : s'.rest = s.rest := by
      rw [← htext, htaken] at hwhole
      exact List.append_cancel_left hwhole
    rw [hscan]
    obtain ⟨piece, taken, rest⟩ := s'
    obtain rfl := hsame rfl
    obtain rfl := htaken
    obtain rfl := hrest
    rfl

/-- A piece is the longest one in front of a text that it may not go on with. -/
theorem IsPiece.isLongest {piece : Piece} (h : IsPiece piece taken)
    (hrest : ∀ c ∈ rest.head?, ¬ piece.mayGoOnWith c) : Scan.IsLongest ⟨piece, taken, rest⟩ := by
  obtain ⟨c, cs, s, more, htext, hscan, htaken, hsame, hgoesOn⟩ := h.exists_scan rest
  have hmore : more ++ s.rest = rest := by
    have hwhole := Scan.taken_append_rest hscan
    rw [← htext, htaken, List.append_assoc] at hwhole
    exact List.append_cancel_left hwhole
  cases more with
  | nil =>
    obtain ⟨piece', taken', rest'⟩ := s
    obtain rfl := hsame rfl
    obtain rfl : taken' = taken := htaken.trans (List.append_nil _)
    obtain rfl : rest' = rest := hmore
    exact (scan_eq_ok_iff.1 hscan).1
  | cons d more => exact absurd (hgoesOn d (by simp)) (hrest d (by simp [← hmore]))

/-- What is at fault where no piece starts. -/
def faultAt (c : Char) (cs : List Char) : Fault :=
  if ['/', '*'] <+: c :: cs then .unterminatedComment else .unexpectedCharacter c

theorem eq_faultAt_of_scan {fault : Fault} (h : scan c cs = .error fault) :
    fault = faultAt c cs := by
  unfold scan at h
  split at h
  · cases h
  unfold scanToken at h
  split at h
  · cases h
  split at h
  · cases h
  split at h
  · split at h
    · cases h
    · cases h; rfl
  · split at h
    · cases h
    · cases h; rfl
  · dsimp only at h
    split at h
    · split at h
      · cases h
      · cases h; rfl
    · cases h; rfl
  · cases h
  · split at h
    · cases h
    · cases h; rfl
  · rename_i hcomment
    split at h
    · cases h
    · obtain rfl := Except.error.inj h
      refine (if_neg ?_).symm
      rintro ⟨rest, hrest⟩
      obtain ⟨rfl, rfl⟩ := List.cons.inj hrest
      exact hcomment rest rfl rfl

/-- **The lexer stops where no piece starts.** -/
theorem scan_eq_error_iff {fault : Fault} :
    scan c cs = .error fault ↔
      (∀ piece taken, IsPiece piece taken → ¬ taken <+: c :: cs) ∧ fault = faultAt c cs := by
  constructor
  · refine fun h => ⟨fun piece taken hpiece hprefix => ?_, eq_faultAt_of_scan h⟩
    obtain ⟨behind, hbehind⟩ := hprefix
    obtain ⟨c', cs', s, more, htext, hscan, -, -, -⟩ := hpiece.exists_scan behind
    obtain ⟨rfl, rfl⟩ := List.cons.inj (hbehind.symm.trans htext)
    cases h.symm.trans hscan
  · rintro ⟨hnone, rfl⟩
    cases h : scan c cs with
    | error fault => rw [eq_faultAt_of_scan h]
    | ok s =>
      refine absurd ?_ (hnone s.piece s.taken (isPiece_of_scan h))
      rw [← Scan.taken_append_rest h]
      exact List.prefix_append _ _

end IdlCompiler.Idl
