/-
# Reading JSON text

A reader for JSON text that says where and why it stops.  A step takes the characters that
are left and gives back a result and the characters behind it, so that a law about it can
be stated for every text that follows.  A failure carries the number of bytes that are left
at its position; the line and the column are computed from it at the end.

Brackets may be open 127 deep.  Digits of a number beyond those of a 64-bit word count
only as places, and a number with a fraction or an exponent is its digits times or divided
by a power of ten, in double arithmetic.
-/
import IdlCompiler.Json.Basic

namespace IdlCompiler.Json

/-- Why a JSON text cannot be read. -/
inductive Fault where
  | endInValue
  | endInList
  | endInObject
  | endInString
  | expectedColon
  | expectedListCommaOrEnd
  | expectedObjectCommaOrEnd
  | expectedWord
  | expectedValue
  | invalidEscape
  | invalidNumber
  | numberOutOfRange
  | controlCharacter
  | keyMustBeString
  | loneSurrogate
  | brokenSurrogatePair
  | trailingComma
  | trailingCharacters
  | tooDeep
deriving DecidableEq, Repr

/-- The wording of a fault. -/
def Fault.message : Fault → String
  | endInValue => "EOF while parsing a value"
  | endInList => "EOF while parsing a list"
  | endInObject => "EOF while parsing an object"
  | endInString => "EOF while parsing a string"
  | expectedColon => "expected `:`"
  | expectedListCommaOrEnd => "expected `,` or `]`"
  | expectedObjectCommaOrEnd => "expected `,` or `\x7d`"
  | expectedWord => "expected ident"
  | expectedValue => "expected value"
  | invalidEscape => "invalid escape"
  | invalidNumber => "invalid number"
  | numberOutOfRange => "number out of range"
  | controlCharacter => "control character (\\u0000-\\u001F) found while parsing a string"
  | keyMustBeString => "key must be a string"
  | loneSurrogate => "lone leading surrogate in hex escape"
  | brokenSurrogatePair => "unexpected end of hex escape"
  | trailingComma => "trailing comma"
  | trailingCharacters => "trailing characters"
  | tooDeep => "recursion limit exceeded"

/-- A failure to read a text: its fault, its line from one, and the number of bytes
between the start of the line and the fault. -/
structure Failure where
  fault : Fault
  line : Nat
  column : Nat
deriving DecidableEq, Repr

/-- The wording of a failure, with its position. -/
def Failure.message (f : Failure) : String :=
  f.fault.message ++ " at line " ++ toString f.line ++ " column " ++ toString f.column

/-- A stop inside a text: the fault and the number of bytes behind its position. -/
structure Stop where
  fault : Fault
  left : Nat
deriving DecidableEq, Repr

/-- The number of bytes of a text. -/
def byteCount : List Char → Nat
  | [] => 0
  | c :: cs => c.utf8Size + byteCount cs

/-- A stop before the characters `rest`. -/
def Stop.before (fault : Fault) (rest : List Char) : Stop := ⟨fault, byteCount rest⟩

/-- A stop after the first byte of `rest`, or at the end of the text. -/
def Stop.within (fault : Fault) (rest : List Char) : Stop := ⟨fault, byteCount rest - 1⟩

/-- The failure that a stop means in a text. -/
def Stop.toFailure (stop : Stop) (text : List Char) : Failure :=
  let bytes := (String.ofList text).toUTF8.toList
  let read := bytes.take (bytes.length - stop.left)
  ⟨stop.fault, 1 + read.count 10, (read.reverse.takeWhile (· ≠ 10)).length⟩

/-- A reading step: a result and the characters behind it, or a stop. -/
abbrev Step (α : Type) := List Char → Except Stop (α × List Char)

/-- Tells whether a character may stand between the parts of a JSON text. -/
def isGap (c : Char) : Bool := c = ' ' || c = '\n' || c = '\t' || c = '\r'

/-- The characters behind the gap that `cs` starts with. -/
def skipGap (cs : List Char) : List Char := cs.dropWhile isGap

/-! ## Words -/

/-- Reads the letters of a word. -/
def readWord : List Char → List Char → Except Stop (List Char)
  | [], rest => .ok rest
  | _ :: _, [] => .error (.before .endInValue [])
  | c :: cs, d :: rest =>
    if c = d then readWord cs rest else .error (.within .expectedWord (d :: rest))

/-! ## Numbers -/

/-- The value of a digit. -/
def digitValue (c : Char) : Nat := c.toNat - '0'.toNat

/-- The largest word without sign. -/
def maxWord : Nat := 18446744073709551615

/-- The largest exponent that is looked at digit by digit. -/
def maxExponent : Nat := 2147483647

/-- The characters behind the digits that `cs` starts with. -/
def skipDigits (cs : List Char) : List Char := cs.dropWhile Char.isDigit

/-- Scales a double by a power of ten, `10 ^ 308` at a time; `none` if it grows too large.
The number of rounds bounds the divisions. -/
def scale : (rounds : Nat) → Float → Int → Option Float
  | 0, x, _ => some x
  | rounds + 1, x, exponent =>
    if exponent.natAbs ≤ 308 then
      let power := Float.ofScientific 1 false exponent.natAbs
      if 0 ≤ exponent then
        let y := x * power
        if y.isInf then none else some y
      else some (x / power)
    else if x == 0.0 then some x
    else if 0 ≤ exponent then none
    else scale rounds (x / Float.ofScientific 1 false 308) (exponent + 308)

/-- The double `significand * 10 ^ exponent` with a sign. -/
def realOfParts (positive : Bool) (significand : Nat) (exponent : Int) (rest : List Char) :
    Except Stop (Number × List Char) :=
  match scale (exponent.natAbs / 308 + 1) significand.toUInt64.toFloat exponent with
  | none => .error (.before .numberOutOfRange rest)
  | some x => .ok (.real (if positive then x else -x), rest)

/-- Reads the digits of an exponent after its first one; `none` if it grows past
`maxExponent`, with the characters behind the digit that made it so. -/
def readExponentDigits : Nat → List Char → Option Nat × List Char
  | exponent, [] => (some exponent, [])
  | exponent, c :: cs =>
    if c.isDigit then
      if maxExponent < exponent * 10 + digitValue c then (none, cs)
      else readExponentDigits (exponent * 10 + digitValue c) cs
    else (some exponent, c :: cs)

/-- Reads an exponent after its mark. -/
def readExponent (positive : Bool) (significand : Nat) (before : Int) (cs : List Char) :
    Except Stop (Number × List Char) :=
  let (up, cs) := match cs with
    | '+' :: rest => (true, rest)
    | '-' :: rest => (false, rest)
    | _ => (true, cs)
  match cs with
  | [] => .error (.before .endInValue [])
  | c :: rest =>
    if c.isDigit then
      match readExponentDigits (digitValue c) rest with
      | (some exponent, rest) =>
        realOfParts positive significand
          (if up then before + (exponent : Int) else before - (exponent : Int)) rest
      | (none, rest) =>
        if significand ≠ 0 ∧ up then .error (.before .numberOutOfRange rest)
        else .ok (.real (if positive then 0.0 else -0.0), skipDigits rest)
    else .error (.within .invalidNumber (c :: rest))

/-- Reads what may follow the digits of a number with a fraction. -/
def readAfterDigits (positive : Bool) (significand : Nat) (exponent : Int) (cs : List Char) :
    Except Stop (Number × List Char) :=
  match cs with
  | 'e' :: rest | 'E' :: rest => readExponent positive significand exponent rest
  | _ => realOfParts positive significand exponent cs

/-- Reads the digits of a fraction as far as the significand fits a word; the places read
lower the exponent. -/
def readFractionDigits : Nat → Nat → List Char → Nat × Nat × Bool × List Char
  | significand, places, [] => (significand, places, false, [])
  | significand, places, c :: cs =>
    if c.isDigit then
      if maxWord < significand * 10 + digitValue c then (significand, places, true, c :: cs)
      else readFractionDigits (significand * 10 + digitValue c) (places + 1) cs
    else (significand, places, false, c :: cs)

/-- Reads a fraction after its point. -/
def readFraction (positive : Bool) (significand : Nat) (before : Int) (cs : List Char) :
    Except Stop (Number × List Char) :=
  match readFractionDigits significand 0 cs with
  | (significand, places, true, rest) =>
    readAfterDigits positive significand (before - (places : Int)) (skipDigits rest)
  | (_, 0, false, rest) =>
    .error (.within (if rest.isEmpty then .endInValue else .invalidNumber) rest)
  | (significand, places + 1, false, rest) =>
    readAfterDigits positive significand (before - ((places : Int) + 1)) rest

/-- Reads the places of a whole number that no word holds. -/
def readLongNumber (positive : Bool) (significand : Nat) (cs : List Char) :
    Except Stop (Number × List Char) :=
  let rest := skipDigits cs
  let places : Int := ((cs.length - rest.length : Nat) : Int)
  match rest with
  | '.' :: more => readFraction positive significand places more
  | _ => readAfterDigits positive significand places rest

/-- The number a word is when neither fraction nor exponent follows it.  Minus zero and
what is too small for a signed word are doubles. -/
def wholeNumber (positive : Bool) (significand : Nat) : Number :=
  if positive then .natural significand.toUInt64
  else if 1 ≤ significand ∧ significand ≤ 9223372036854775808 then
    .negative (Int64.ofInt (-(significand : Int)))
  else .real (-significand.toUInt64.toFloat)

/-- Reads what follows a whole number that a word holds. -/
def readAfterWhole (positive : Bool) (significand : Nat) (cs : List Char) :
    Except Stop (Number × List Char) :=
  match cs with
  | '.' :: rest => readFraction positive significand 0 rest
  | 'e' :: rest | 'E' :: rest => readExponent positive significand 0 rest
  | _ => .ok (wholeNumber positive significand, cs)

/-- Reads the digits of a whole number after its first one. -/
def readWholeDigits (positive : Bool) : Nat → List Char → Except Stop (Number × List Char)
  | significand, [] => readAfterWhole positive significand []
  | significand, c :: cs =>
    if c.isDigit then
      if maxWord < significand * 10 + digitValue c then
        readLongNumber positive significand (c :: cs)
      else readWholeDigits positive (significand * 10 + digitValue c) cs
    else readAfterWhole positive significand (c :: cs)

/-- Reads a number after its sign. -/
def readUnsigned (positive : Bool) : Step Number
  | [] => .error (.before .endInValue [])
  | '0' :: rest =>
    if (rest.head?.map Char.isDigit).getD false then .error (.within .invalidNumber rest)
    else readAfterWhole positive 0 rest
  | c :: rest =>
    if c.isDigit then readWholeDigits positive (digitValue c) rest
    else .error (.within .invalidNumber (c :: rest))

/-- Reads a number. -/
def readNumber : Step Number
  | '-' :: rest => readUnsigned false rest
  | cs => readUnsigned true cs

/-! ## Strings -/

/-- The value of a hexadecimal digit. -/
def hexValue? (c : Char) : Option Nat :=
  if c.isDigit then some (c.toNat - '0'.toNat)
  else if 'a' ≤ c ∧ c ≤ 'f' then some (c.toNat - 'a'.toNat + 10)
  else if 'A' ≤ c ∧ c ≤ 'F' then some (c.toNat - 'A'.toNat + 10)
  else none

/-- Reads four hexadecimal digits.  Four bytes are taken from the text before they are
looked at. -/
def readHex : Step Nat := fun cs =>
  let available := byteCount cs
  if available < 4 then .error (.before .endInString [])
  else match cs with
    | a :: b :: c :: d :: rest =>
      match hexValue? a, hexValue? b, hexValue? c, hexValue? d with
      | some a, some b, some c, some d => .ok (((a * 16 + b) * 16 + c) * 16 + d, rest)
      | _, _, _, _ => .error ⟨.invalidEscape, available - 4⟩
    | _ => .error ⟨.invalidEscape, available - 4⟩

/-- Reads one given character of the second half of a surrogate pair. -/
def readPairMark (mark : Char) (cs : List Char) : Except Stop (List Char) :=
  match cs with
  | [] => .error (.before .endInString [])
  | c :: rest => if c = mark then .ok rest else .error (.within .brokenSurrogatePair cs)

/-- Reads what follows `\u`: a code unit, or the two of a surrogate pair. -/
def readUnicode : Step Char := fun cs => do
  let (high, rest) ← readHex cs
  if 0xDC00 ≤ high ∧ high ≤ 0xDFFF then .error (.before .loneSurrogate rest)
  else if high < 0xD800 ∨ 0xDBFF < high then .ok (Char.ofNat high, rest)
  else
    let rest ← readPairMark '\\' rest
    let rest ← readPairMark 'u' rest
    let (low, rest) ← readHex rest
    if low < 0xDC00 ∨ 0xDFFF < low then .error (.before .loneSurrogate rest)
    else .ok (Char.ofNat ((high - 0xD800) * 0x400 + (low - 0xDC00) + 0x10000), rest)

/-- Reads what follows a backslash. -/
def readEscape : Step Char
  | [] => .error (.before .endInString [])
  | '"' :: rest => .ok ('"', rest)
  | '\\' :: rest => .ok ('\\', rest)
  | '/' :: rest => .ok ('/', rest)
  | 'b' :: rest => .ok (Char.ofNat 8, rest)
  | 'f' :: rest => .ok (Char.ofNat 12, rest)
  | 'n' :: rest => .ok ('\n', rest)
  | 'r' :: rest => .ok ('\r', rest)
  | 't' :: rest => .ok ('\t', rest)
  | 'u' :: rest => readUnicode rest
  | cs => .error (.within .invalidEscape cs)

/-- Reads the characters of a string up to its closing quotation mark.  Every round takes
at least one character, so as many rounds as characters are enough. -/
def readChars : (rounds : Nat) → Step (List Char)
  | 0, _ => .error (.before .endInString [])
  | _ + 1, [] => .error (.before .endInString [])
  | rounds + 1, c :: cs =>
    if c = '"' then .ok ([], cs)
    else if c = '\\' then do
      let (d, rest) ← readEscape cs
      let (ds, rest) ← readChars rounds rest
      return (d :: ds, rest)
    else if c.toNat < 32 then .error (.within .controlCharacter (c :: cs))
    else do
      let (ds, rest) ← readChars rounds cs
      return (c :: ds, rest)

/-- Reads a string after its opening quotation mark. -/
def readString : Step String := fun cs => do
  let (chars, rest) ← readChars (cs.length + 1) cs
  return (String.ofList chars, rest)

/-! ## Arrays and objects -/

/-- Reads the items of an array that follow its first one, up to its closing bracket. -/
def readMoreItems (item : Step Json) : (rounds : Nat) → Step (List Json)
  | 0, cs => .error (.within .endInList cs)
  | rounds + 1, cs =>
    match skipGap cs with
    | [] => .error (.within .endInList [])
    | ']' :: rest => .ok ([], rest)
    | ',' :: rest =>
      match skipGap rest with
      | [] => .error (.within .endInValue [])
      | ']' :: more => .error (.within .trailingComma (']' :: more))
      | more => do
        let (v, rest) ← item more
        let (vs, rest) ← readMoreItems item rounds rest
        return (v :: vs, rest)
    | rest => .error (.within .expectedListCommaOrEnd rest)

/-- Reads an array after its opening bracket. -/
def readItems (item : Step Json) : Step (List Json) := fun cs =>
  match skipGap cs with
  | [] => .error (.within .endInList [])
  | ']' :: rest => .ok ([], rest)
  | more => do
    let (v, rest) ← item more
    let (vs, rest) ← readMoreItems item (rest.length + 1) rest
    return (v :: vs, rest)

/-- Reads a member of an object: a key, a colon and a value. -/
def readMember (item : Step Json) : Step (String × Json)
  | '"' :: cs => do
    let (key, rest) ← readString cs
    match skipGap rest with
    | [] => .error (.within .endInObject [])
    | ':' :: rest =>
      let (v, rest) ← item rest
      return ((key, v), rest)
    | rest => .error (.within .expectedColon rest)
  | cs => .error (.within .keyMustBeString cs)

/-- Reads the members of an object that follow its first one, up to its closing bracket. -/
def readMoreMembers (item : Step Json) : (rounds : Nat) → Step (List (String × Json))
  | 0, cs => .error (.within .endInObject cs)
  | rounds + 1, cs =>
    match skipGap cs with
    | [] => .error (.within .endInObject [])
    | '}' :: rest => .ok ([], rest)
    | ',' :: rest =>
      match skipGap rest with
      | [] => .error (.within .endInValue [])
      | '}' :: more => .error (.within .trailingComma ('}' :: more))
      | more => do
        let (m, rest) ← readMember item more
        let (ms, rest) ← readMoreMembers item rounds rest
        return (m :: ms, rest)
    | rest => .error (.within .expectedObjectCommaOrEnd rest)

/-- Reads an object after its opening bracket.  A key that comes again replaces the value
it had before. -/
def readMembers (item : Step Json) : Step Members := fun cs =>
  match skipGap cs with
  | [] => .error (.within .endInObject [])
  | '}' :: rest => .ok ([], rest)
  | more => do
    let (m, rest) ← readMember item more
    let (ms, rest) ← readMoreMembers item (rest.length + 1) rest
    return (Members.insertAll [] (m :: ms), rest)

/-! ## Values -/

/-- Reads a value that is neither array nor object. -/
def readScalar : Step Json := fun cs =>
  match cs with
  | [] => .error (.within .endInValue [])
  | 'n' :: rest => do
    let rest ← readWord ['u', 'l', 'l'] rest
    return (.null, rest)
  | 't' :: rest => do
    let rest ← readWord ['r', 'u', 'e'] rest
    return (.bool true, rest)
  | 'f' :: rest => do
    let rest ← readWord ['a', 'l', 's', 'e'] rest
    return (.bool false, rest)
  | '"' :: rest => do
    let (s, rest) ← readString rest
    return (.string s, rest)
  | c :: rest =>
    if c = '-' || c.isDigit then do
      let (n, rest) ← readNumber (c :: rest)
      return (.number n, rest)
    else .error (.within .expectedValue (c :: rest))

/-- Reads a value in which brackets may open `levels` deep. -/
def readValue : (levels : Nat) → Step Json
  | levels, cs =>
    match levels, skipGap cs with
    | 0, '[' :: rest => .error (.within .tooDeep ('[' :: rest))
    | 0, '{' :: rest => .error (.within .tooDeep ('{' :: rest))
    | levels + 1, '[' :: rest => do
      let (items, rest) ← readItems (readValue levels) rest
      return (.array items, rest)
    | levels + 1, '{' :: rest => do
      let (members, rest) ← readMembers (readValue levels) rest
      return (.object members, rest)
    | _, cs => readScalar cs

/-- How deep brackets may be open. -/
def maxDepth : Nat := 127

/-- Turns a step that reads a value into a reader of whole texts. -/
def readWhole {α : Type} (step : Step α) (text : List Char) : Except Failure α :=
  match step text with
  | .error stop => .error (stop.toFailure text)
  | .ok (v, rest) =>
    match skipGap rest with
    | [] => .ok v
    | rest => .error ((Stop.within .trailingCharacters rest).toFailure text)

/-- Reads a text as one JSON value. -/
def read (text : String) : Except Failure Json := readWhole (readValue maxDepth) text.toList

/-- Reads a text as one JSON string. -/
def readStringText (text : String) : Except Failure String :=
  readWhole (fun cs => match skipGap cs with
    | '"' :: rest => readString rest
    | rest => .error (.within .expectedValue rest)) text.toList

end IdlCompiler.Json
