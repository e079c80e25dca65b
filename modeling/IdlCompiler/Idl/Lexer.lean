/-
# The lexer

A text is cut into pieces from left to right: runs of blanks, comments and the lexemes of
tokens.  Each piece is the longest one that the text starts with.  The main statement,
`Scan.taken_append_rest`, says that a piece and the rest make up the text, so nothing is
lost and nothing moved.
-/
import IdlCompiler.Name
import IdlCompiler.Protocol.Document

namespace IdlCompiler.Idl

/-- Tells whether a character may stand between tokens. -/
def isSkipped (c : Char) : Bool :=
  c = ' ' || c = '\t' || c = '\r' || c = '\n' || c = Char.ofNat 12

/-! ## Lexemes -/

/-- Divides a text after the longest way in which a dotted name goes on. -/
def wordTail : List Char → List Char × List Char
  | [] => ([], [])
  | '.' :: c :: cs =>
    if Name.isStart c then
      let (taken, rest) := wordTail cs
      ('.' :: c :: taken, rest)
    else ([], '.' :: c :: cs)
  | c :: cs =>
    if Name.isPart c then
      let (taken, rest) := wordTail cs
      (c :: taken, rest)
    else ([], c :: cs)

/-- Divides a text after the quotation mark that closes a string literal.  A backslash
takes the next character with it, which may be no line feed. -/
def stringTail? : List Char → Option (List Char × List Char)
  | [] => none
  | '"' :: cs => some (['"'], cs)
  | ['\\'] => none
  | '\\' :: c :: cs =>
    if c = '\n' then none
    else (stringTail? cs).map fun (taken, rest) => ('\\' :: c :: taken, rest)
  | c :: cs => (stringTail? cs).map fun (taken, rest) => (c :: taken, rest)

/-- Divides a text after the digits it starts with. -/
def digitsTail (cs : List Char) : List Char × List Char := Text.cut Char.isDigit cs

/-- Divides a text after a fraction, if one with at least one digit is there. -/
def fractionTail (cs : List Char) : List Char × List Char :=
  match cs with
  | '.' :: more =>
    match digitsTail more with
    | ([], _) => ([], cs)
    | (digits, rest) => ('.' :: digits, rest)
  | _ => ([], cs)

/-- Divides a text after the sign it may start with. -/
def signTail (cs : List Char) : List Char × List Char :=
  match cs with
  | '+' :: rest => (['+'], rest)
  | '-' :: rest => (['-'], rest)
  | _ => ([], cs)

/-- Divides a text after an exponent, if one with at least one digit is there. -/
def exponentTail (cs : List Char) : List Char × List Char :=
  match cs with
  | [] => ([], [])
  | e :: more =>
    if e = 'e' || e = 'E' then
      let sign := signTail more
      match digitsTail sign.2 with
      | ([], _) => ([], cs)
      | (digits, rest) => (e :: sign.1 ++ digits, rest)
    else ([], cs)

/-- Divides a text after the digits, the fraction and the exponent of a number. -/
def numberTail (cs : List Char) : List Char × List Char :=
  let digits := digitsTail cs
  let fraction := fractionTail digits.2
  let exponent := exponentTail fraction.2
  (digits.1 ++ fraction.1 ++ exponent.1, exponent.2)

/-- Divides a text before and after the first end of a block comment. -/
def commentTail? : List Char → Option (List Char × List Char)
  | [] => none
  | '*' :: '/' :: cs => some ([], cs)
  | c :: cs => (commentTail? cs).map fun (body, rest) => (c :: body, rest)

/-! ## Documentation comments -/

/-- A line of a documentation comment without its decoration: blanks at either end, one
star, and the blanks behind it. -/
def cleanLine (line : List Char) : List Char :=
  match Text.trim line with
  | '*' :: rest => Text.trimStart rest
  | line => line

/-- The text of a documentation comment, from what stands after its two stars. -/
def cleanDoc (body : List Char) : String :=
  String.ofList (Text.trim (Text.joinWith ['\n'] ((Text.lines body).map cleanLine)))

/-- The text of a block comment if it is documentation: its body starts with a star and
goes on. -/
def docOf? (body : List Char) : Option String :=
  match body with
  | '*' :: c :: cs => some (cleanDoc (c :: cs))
  | _ => none

/-! ## Pieces -/

/-- What a piece of a text is. -/
inductive Piece where
  /-- A run of blanks. -/
  | blanks
  /-- A comment, with its text if it is documentation. -/
  | comment (doc : Option String)
  | token (kind : TokenKind)
deriving DecidableEq, Repr

/-- The first piece of a text: what it is, its characters, and the characters behind. -/
structure Scan where
  piece : Piece
  taken : List Char
  rest : List Char
deriving Repr

/-- The first piece of a text that starts with `c`, if a token or a comment starts there. -/
def scanToken (c : Char) (cs : List Char) : Except Fault Scan :=
  if Name.isStart c then
    let tail := wordTail cs
    .ok ⟨.token (.word (String.ofList (c :: tail.1))), c :: tail.1, tail.2⟩
  else if c.isDigit then
    let tail := numberTail (c :: cs)
    .ok ⟨.token (.numberLiteral (String.ofList tail.1)), tail.1, tail.2⟩
  else match c, cs with
    | '-', d :: more =>
      if d.isDigit then
        let tail := numberTail (d :: more)
        .ok ⟨.token (.numberLiteral (String.ofList ('-' :: tail.1))), '-' :: tail.1, tail.2⟩
      else .error (.unexpectedCharacter '-')
    | '"', _ =>
      match stringTail? cs with
      | some (taken, rest) =>
        .ok ⟨.token (.stringLiteral (String.ofList ('"' :: taken))), '"' :: taken, rest⟩
      | none => .error (.unexpectedCharacter '"')
    | '\x60', _ =>
      let word := Text.cut Name.isPart cs
      match word.2 with
      | '\x60' :: rest =>
        if Name.isIdentifierChars word.1 then
          .ok ⟨.token (.word (String.ofList word.1)), '\x60' :: word.1 ++ ['\x60'], rest⟩
        else .error (.unexpectedCharacter '\x60')
      | _ => .error (.unexpectedCharacter '\x60')
    | '/', '/' :: more =>
      let tail := Text.cut (· ≠ '\n') more
      .ok ⟨.comment none, '/' :: '/' :: tail.1, tail.2⟩
    | '/', '*' :: more =>
      match commentTail? more with
      | some (body, rest) =>
        .ok ⟨.comment (docOf? body), '/' :: '*' :: body ++ ['*', '/'], rest⟩
      | none => .error .unterminatedComment
    | _, _ =>
      match Mark.ofChar? c with
      | some mark => .ok ⟨.token (.mark mark), [c], cs⟩
      | none => .error (.unexpectedCharacter c)

/-- The first piece of a text that starts with `c`. -/
def scan (c : Char) (cs : List Char) : Except Fault Scan :=
  if isSkipped c then
    let tail := Text.cut isSkipped cs
    .ok ⟨.blanks, c :: tail.1, tail.2⟩
  else scanToken c cs

/-! ## Tokens -/

/-- The position behind a character. -/
def Position.next (p : Position) (c : Char) : Position :=
  if c = '\n' then ⟨p.line + 1, 1⟩ else ⟨p.line, p.column + 1⟩

/-- The position behind some characters. -/
def Position.after (p : Position) (cs : List Char) : Position := cs.foldl Position.next p

/-- The position at which every text starts. -/
def Position.start : Position := ⟨1, 1⟩

/-- The tokens of a text that starts at `p` behind a documentation comment `doc`.  Every
piece has at least one character, so as many rounds as characters are enough. -/
def tokensFrom : (rounds : Nat) → (p : Position) → (doc : Option String) → List Char →
    Reading (List Token)
  | _, p, _, [] => .ok [{ kind := .endOfInput, position := p }]
  | 0, p, _, c :: _ => .error (.fault p (.unexpectedCharacter c))
  | rounds + 1, p, doc, c :: cs =>
    match scan c cs with
    | .error fault => .error (.fault p fault)
    | .ok s =>
      match s.piece with
      | .blanks => tokensFrom rounds (p.after s.taken) doc s.rest
      | .comment doc' => tokensFrom rounds (p.after s.taken) (doc'.or doc) s.rest
      | .token kind => do
        let tokens ← tokensFrom rounds (p.after s.taken) none s.rest
        return ⟨kind, p, doc⟩ :: tokens

/-- The tokens of a text, the last of which is the end of the text. -/
def tokenize (text : String) : Reading (List Token) :=
  let cs := text.toList
  tokensFrom cs.length .start none cs

/-! ## Nothing is lost -/

theorem wordTail_append (cs : List Char) : (wordTail cs).1 ++ (wordTail cs).2 = cs := by
  fun_induction wordTail cs <;> simp_all

theorem stringTail?_append {cs taken rest : List Char} (h : stringTail? cs = some (taken, rest)) :
    taken ++ rest = cs := by
  fun_induction stringTail? cs generalizing taken rest with
  | case1 => cases h
  | case2 => cases h; rfl
  | case3 => cases h
  | case4 => cases h
  | case5 c cs _ ih =>
    obtain ⟨⟨t, r⟩, ht, he⟩ := Option.map_eq_some_iff.1 h
    cases he
    simp [ih ht]
  | case6 c cs _ _ _ ih =>
    obtain ⟨⟨t, r⟩, ht, he⟩ := Option.map_eq_some_iff.1 h
    cases he
    simp [ih ht]

theorem commentTail?_append {cs body rest : List Char}
    (h : commentTail? cs = some (body, rest)) : body ++ '*' :: '/' :: rest = cs := by
  fun_induction commentTail? cs generalizing body rest with
  | case1 => cases h
  | case2 => cases h; rfl
  | case3 c cs _ ih =>
    obtain ⟨⟨t, r⟩, ht, he⟩ := Option.map_eq_some_iff.1 h
    cases he
    simp [ih ht]

theorem digitsTail_append (cs : List Char) : (digitsTail cs).1 ++ (digitsTail cs).2 = cs :=
  Text.cut_append _ _

theorem fractionTail_append (cs : List Char) :
    (fractionTail cs).1 ++ (fractionTail cs).2 = cs := by
  unfold fractionTail
  split
  · rename_i more
    have h := digitsTail_append more
    split <;> simp_all
  · rfl

theorem signTail_append (cs : List Char) : (signTail cs).1 ++ (signTail cs).2 = cs := by
  unfold signTail
  split <;> rfl

theorem exponentTail_append (cs : List Char) :
    (exponentTail cs).1 ++ (exponentTail cs).2 = cs := by
  unfold exponentTail
  split
  · rfl
  · rename_i e more
    have hs := signTail_append more
    have hd := digitsTail_append (signTail more).2
    split
    · dsimp only
      split
      · rfl
      · rename_i hr
        rw [hr] at hd
        simp [hd, hs]
    · rfl

theorem numberTail_append (cs : List Char) : (numberTail cs).1 ++ (numberTail cs).2 = cs := by
  simp only [numberTail, List.append_assoc, exponentTail_append, fractionTail_append,
    digitsTail_append]

theorem Scan.taken_append_rest {c : Char} {cs : List Char} {s : Scan} (h : scan c cs = .ok s) :
    s.taken ++ s.rest = c :: cs := by
  unfold scan at h
  split at h
  · cases h
    simp
  unfold scanToken at h
  split at h
  · cases h; simp [wordTail_append]
  split at h
  · cases h; exact numberTail_append (c :: cs)
  split at h
  · split at h
    · cases h; simp [numberTail_append]
    · cases h
  · split at h
    · rename_i h'
      cases h; simp [stringTail?_append h']
    · cases h
  · dsimp only at h
    split at h
    · rename_i rest hr
      split at h
      · cases h
        have hc := Text.cut_append Name.isPart cs
        rw [hr] at hc
        simp [hc]
      · cases h
    · cases h
  · cases h
    simp
  · split at h
    · rename_i h'
      cases h; simp [commentTail?_append h']
    · cases h
  · split at h
    · cases h; rfl
    · cases h

end IdlCompiler.Idl
