/-
# Tokens of the interface definition language

A token is a word, a literal, a mark or the end of the text, with its position and the
documentation comment that stands before it.
-/

namespace IdlCompiler.Idl

/-- A position in a text: the line and the column in characters, both from one. -/
structure Position where
  line : Nat
  column : Nat
deriving DecidableEq, Repr

/-- The marks of the language. -/
inductive Mark where
  | openBrace
  | closeBrace
  | openParen
  | closeParen
  | openAngle
  | closeAngle
  | openBracket
  | closeBracket
  | semicolon
  | comma
  | equals
  | colon
  | atSign
deriving DecidableEq, Repr

/-- The character of a mark. -/
def Mark.char : Mark → Char
  | openBrace => '{'
  | closeBrace => '}'
  | openParen => '('
  | closeParen => ')'
  | openAngle => '<'
  | closeAngle => '>'
  | openBracket => '['
  | closeBracket => ']'
  | semicolon => ';'
  | comma => ','
  | equals => '='
  | colon => ':'
  | atSign => '@'

/-- All marks. -/
def Mark.all : List Mark :=
  [.openBrace, .closeBrace, .openParen, .closeParen, .openAngle, .closeAngle, .openBracket,
    .closeBracket, .semicolon, .comma, .equals, .colon, .atSign]

/-- The mark that a character is. -/
def Mark.ofChar? (c : Char) : Option Mark := all.find? fun m => m.char = c

/-- What a token is. -/
inductive TokenKind where
  /-- A word or a dotted name, without back quotes. -/
  | word (text : String)
  /-- A string literal as it is written, with its quotation marks. -/
  | stringLiteral (text : String)
  /-- A number literal as it is written. -/
  | numberLiteral (text : String)
  | mark (mark : Mark)
  | endOfInput
deriving DecidableEq, Repr

/-- How messages call a token. -/
def TokenKind.shown : TokenKind → String
  | word text => s!"identifier '{text}'"
  | stringLiteral text => "string " ++ text
  | numberLiteral text => "number " ++ text
  | mark m => "'" ++ m.char.toString ++ "'"
  | endOfInput => "end of input"

/-- A token. -/
structure Token where
  kind : TokenKind
  position : Position
  /-- The text of the last documentation comment before the token. -/
  doc : Option String := none
deriving DecidableEq, Repr

/-! ## Small laws -/

@[simp] theorem Mark.ofChar?_char (m : Mark) : Mark.ofChar? m.char = some m := by
  cases m <;> decide

theorem Mark.char_of_ofChar? {c : Char} {m : Mark} (h : Mark.ofChar? c = some m) :
    m.char = c := by
  simpa using List.find?_some h

end IdlCompiler.Idl
