/-
# Numbers of JSON

A number is a whole number of 64 bits or a double.  A whole number that is not negative
is kept apart from a negative one, and both from the double of the same value: two numbers
are the same only if they are of one kind.
-/
import IdlCompiler.Decimal.Shortest

namespace IdlCompiler.Json

/-- A number as JSON text can give it. -/
inductive Number where
  /-- A whole number from zero to `2 ^ 64 - 1`. -/
  | natural (value : UInt64)
  /-- A whole number from `-2 ^ 63` to `-1`. -/
  | negative (value : Int64)
  /-- A finite double; minus zero is one. -/
  | real (value : Float)
deriving Repr

namespace Number

/-- Equality of numbers.  Doubles compare by value, so that the two zeros are the same. -/
def same : Number → Number → Bool
  | natural m, natural n => m == n
  | negative m, negative n => m == n
  | real x, real y => x == y
  | _, _ => false

/-- The number as a word without sign, if it is one. -/
def toUInt64? : Number → Option UInt64
  | natural n => some n
  | _ => none

/-- The digits of a natural number in base ten. -/
def digits (n : Nat) : List Char := Nat.toDigits 10 n

/-- How the text of a double is laid out. -/
structure RealFormat where
  /-- The smallest decimal exponent that is written positionally. -/
  leastPositional : Int
  /-- The largest decimal exponent that is written positionally. -/
  mostPositional : Int
  /-- The character between the digits and the exponent. -/
  exponentMark : Char
  /-- Tells whether an exponent that is not negative is written with a plus sign. -/
  plusSign : Bool

/-- Doubles are written positionally from `0.00001` to below `10 ^ 16`; the exponent is
written with its sign. -/
def realFormat : RealFormat := ⟨-5, 15, 'e', true⟩

/-- Zeros, `n` of them. -/
def zeros (n : Nat) : List Char := List.replicate n '0'

/-- A positional decimal with a point: at least one digit stands on each side of it. -/
def positional (ds : List Char) (exponent : Int) : List Char :=
  if 0 ≤ exponent then ds ++ zeros exponent.toNat ++ ['.', '0']
  else
    let places := (-exponent).toNat
    if places < ds.length then ds.take (ds.length - places) ++ '.' :: ds.drop (ds.length - places)
    else '0' :: '.' :: zeros (places - ds.length) ++ ds

/-- A decimal with one digit before the point and an exponent. -/
def scientific (format : RealFormat) (ds : List Char) (leading : Int) : List Char :=
  let mantissa := match ds with
    | [] => []
    | [d] => [d]
    | d :: rest => d :: '.' :: rest
  let sign := if leading < 0 then ['-'] else if format.plusSign then ['+'] else []
  mantissa ++ format.exponentMark :: sign ++ digits leading.natAbs

/-- The text of a decimal in a format. -/
def RealFormat.write (format : RealFormat) (d : Decimal.Digits) : List Char :=
  let ds := digits d.digits
  let leading := d.exponent + (ds.length : Int) - 1
  if format.leastPositional ≤ leading ∧ leading ≤ format.mostPositional then
    positional ds d.exponent
  else scientific format ds leading

/-- The text of a finite double: the shortest digits that read back. -/
def realText (x : Float) : List Char :=
  let bits := x.toBits
  let size := Decimal.Binary.ofBits bits
  let text :=
    if size.mantissa = 0 then ['0', '.', '0'] else realFormat.write size.shortest.stripZeros
  if bits >>> 63 = 1 then '-' :: text else text

/-- The text of a number. -/
def text : Number → List Char
  | natural n => digits n.toNat
  | negative n => '-' :: digits n.toInt.natAbs
  | real x => realText x

end Number

end IdlCompiler.Json
