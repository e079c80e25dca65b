/-
# Text of JSON values

Two layouts of a value: on one line without blanks, as messages show it, and spread over
lines with an indentation of two blanks, as documents hold it.
-/
import IdlCompiler.Json.Basic

namespace IdlCompiler.Json

/-- The digit of a number below sixteen, with small letters. -/
def hexDigit (n : Nat) : Char := Nat.digitChar n

/-- The form of a character inside a string.  A quotation mark, a backslash and every
character below the blank are escaped, five of the latter by a letter. -/
def escaped (c : Char) : List Char :=
  if c = '"' then ['\\', '"']
  else if c = '\\' then ['\\', '\\']
  else if c = '\n' then ['\\', 'n']
  else if c = '\r' then ['\\', 'r']
  else if c = '\t' then ['\\', 't']
  else if c.toNat = 8 then ['\\', 'b']
  else if c.toNat = 12 then ['\\', 'f']
  else if c.toNat < 32 then
    ['\\', 'u', '0', '0', hexDigit (c.toNat / 16), hexDigit (c.toNat % 16)]
  else [c]

/-- A text as a string literal. -/
def quoted (text : String) : List Char := '"' :: text.toList.flatMap escaped ++ ['"']

mutual

/-- The text of a value on one line. -/
def compact : Json → List Char
  | null => ['n', 'u', 'l', 'l']
  | bool true => ['t', 'r', 'u', 'e']
  | bool false => ['f', 'a', 'l', 's', 'e']
  | number n => n.text
  | string s => quoted s
  | array [] => ['[', ']']
  | array (v :: vs) => '[' :: compact v ++ compactItems vs ++ [']']
  | object [] => ['{', '}']
  | object ((k, v) :: ms) => '{' :: quoted k ++ ':' :: compact v ++ compactMembers ms ++ ['}']
termination_by structural v => v

/-- The text of the items after the first. -/
def compactItems : List Json → List Char
  | [] => []
  | v :: vs => ',' :: compact v ++ compactItems vs
termination_by structural vs => vs

/-- The text of the members after the first. -/
def compactMembers : List (String × Json) → List Char
  | [] => []
  | (k, v) :: ms => ',' :: quoted k ++ ':' :: compact v ++ compactMembers ms
termination_by structural ms => ms

end

/-- A line feed and the indentation of a level. -/
def newLine (level : Nat) : List Char := '\n' :: List.replicate (2 * level) ' '

mutual

/-- The text of a value over several lines, whose first line is already indented. -/
def pretty (level : Nat) : Json → List Char
  | null => ['n', 'u', 'l', 'l']
  | bool true => ['t', 'r', 'u', 'e']
  | bool false => ['f', 'a', 'l', 's', 'e']
  | number n => n.text
  | string s => quoted s
  | array [] => ['[', ']']
  | array (v :: vs) =>
    '[' :: newLine (level + 1) ++ pretty (level + 1) v ++ prettyItems (level + 1) vs
      ++ newLine level ++ [']']
  | object [] => ['{', '}']
  | object ((k, v) :: ms) =>
    '{' :: newLine (level + 1) ++ quoted k ++ ':' :: ' ' :: pretty (level + 1) v
      ++ prettyMembers (level + 1) ms ++ newLine level ++ ['}']
termination_by structural v => v

/-- The text of the items after the first, each on a line of its own. -/
def prettyItems (level : Nat) : List Json → List Char
  | [] => []
  | v :: vs => ',' :: newLine level ++ pretty level v ++ prettyItems level vs
termination_by structural vs => vs

/-- The text of the members after the first, each on a line of its own. -/
def prettyMembers (level : Nat) : List (String × Json) → List Char
  | [] => []
  | (k, v) :: ms =>
    ',' :: newLine level ++ quoted k ++ ':' :: ' ' :: pretty level v ++ prettyMembers level ms
termination_by structural ms => ms

end

/-- The text of a value on one line. -/
def toText (v : Json) : String := String.ofList (compact v)

/-- The text of a value over several lines. -/
def toPrettyText (v : Json) : String := String.ofList (pretty 0 v)

end IdlCompiler.Json
