/-
# The shortest decimal that reads back as a given double

A finite double that is not zero is `mantissa * 2 ^ exponent`, and the reals that round to
it form an interval around it.  Among the decimals in that interval the one with the
fewest digits is chosen, of those with the fewest digits the nearest, and of two equally
near the one whose last digit is even.  All arithmetic is exact, on natural numbers.
-/

namespace IdlCompiler.Decimal

/-- The size of a finite double, `mantissa * 2 ^ exponent`. -/
structure Binary where
  /-- The binary digits as a natural number. -/
  mantissa : Nat
  /-- The power of two that the mantissa counts. -/
  exponent : Int
  /-- Tells whether the next smaller double is only half as far away as the next larger
  one, as it is at a power of two. -/
  narrowBelow : Bool
deriving DecidableEq, Repr

/-- A decimal `digits * 10 ^ exponent`. -/
structure Digits where
  /-- The digits as a natural number. -/
  digits : Nat
  /-- The power of ten that the digits count. -/
  exponent : Int
deriving DecidableEq, Repr

/-- The size of the finite double with these bits; the sign bit is not looked at. -/
def Binary.ofBits (bits : UInt64) : Binary :=
  let fraction : Nat := bits.toNat % Nat.pow 2 52
  let biased : Nat := bits.toNat / Nat.pow 2 52 % Nat.pow 2 11
  if biased = 0 then ⟨fraction, -1074, false⟩
  else ⟨Nat.pow 2 52 + fraction, (biased : Int) - 1075, fraction = 0 && biased > 1⟩

namespace Binary

/-- Four times the mantissa, so that the ends of the interval are whole numbers too. -/
def quarters (b : Binary) : Nat := 4 * b.mantissa

/-- The lower end of the interval of reals that round to `b`, in quarters of its unit. -/
def lower (b : Binary) : Nat := b.quarters - if b.narrowBelow then 1 else 2

/-- The upper end of the interval of reals that round to `b`, in quarters of its unit. -/
def upper (b : Binary) : Nat := b.quarters + 2

/-- A decimal with unit `10 ^ place` times this factor … -/
def decimalFactor (b : Binary) (place : Int) : Nat :=
  Nat.pow 10 place.toNat * Nat.pow 2 (2 - b.exponent).toNat

/-- … is compared with a number of quarters times this one. -/
def quarterFactor (b : Binary) (place : Int) : Nat :=
  Nat.pow 2 (b.exponent - 2).toNat * Nat.pow 10 (-place).toNat

/-- Tells whether `digits * 10 ^ place` rounds to `b`.  The ends of the interval round to
the double with the even mantissa. -/
def contains (b : Binary) (digits : Nat) (place : Int) : Bool :=
  let d := digits * b.decimalFactor place
  let lo := b.lower * b.quarterFactor place
  let hi := b.upper * b.quarterFactor place
  if b.mantissa % 2 = 0 then lo ≤ d && d ≤ hi else lo < d && d < hi

/-- The largest whole number of units `10 ^ place` that is not above `b`. -/
def floorAt (b : Binary) (place : Int) : Nat :=
  b.quarters * b.quarterFactor place / b.decimalFactor place

/-- Of the two points of the grid of `10 ^ place` next to `b`, the nearer one that rounds
to `b`; of two equally near ones, the even one. -/
def nearestAt? (b : Binary) (place : Int) : Option Digits :=
  let below := b.floorAt place
  let above := below + 1
  match b.contains below place, b.contains above place with
  | false, false => none
  | true, false => some ⟨below, place⟩
  | false, true => some ⟨above, place⟩
  | true, true =>
    let twice := 2 * (b.quarters * b.quarterFactor place)
    let middle := (below + above) * b.decimalFactor place
    if twice < middle || (twice = middle && below % 2 = 0) then some ⟨below, place⟩
    else some ⟨above, place⟩

/-- The decimal exponent of the first digit of `b`.  No double is below `10 ^ (-324)`, so
a grid of `10 ^ (-400)` shows it. -/
def leadingPlace (b : Binary) : Int :=
  ((Nat.toDigits 10 (b.floorAt (-400))).length : Int) - 401

/-- The shortest decimal that reads back as `b`: the first grid of one, two, … seventeen
digits with a point that rounds to `b`.  Seventeen digits always suffice. -/
def shortest (b : Binary) : Digits :=
  let grids := (List.range 17).map fun (n : Nat) => b.leadingPlace - (n : Int)
  (grids.findSome? b.nearestAt?).getD ⟨b.floorAt (b.leadingPlace - 16), b.leadingPlace - 16⟩

end Binary

namespace Digits

/-- The same decimal without zeros at the end of its digits. -/
def stripZeros (d : Digits) : Digits :=
  go d.digits d.digits d.exponent
where
  /-- Removes one zero a round; the number of rounds is bounded by the digits. -/
  go : Nat → Nat → Int → Digits
    | 0, digits, exponent => ⟨digits, exponent⟩
    | rounds + 1, digits, exponent =>
      if digits % 10 = 0 ∧ digits ≠ 0 then go rounds (digits / 10) (exponent + 1)
      else ⟨digits, exponent⟩

end Digits

/-! ## Small laws -/

/-- A decimal that is found on a grid does round to the double. -/
theorem Binary.contains_of_nearestAt? {b : Binary} {place : Int} {d : Digits}
    (h : b.nearestAt? place = some d) : d.exponent = place ∧ b.contains d.digits place := by
  unfold nearestAt? at h
  dsimp only at h
  split at h
  · cases h
  · cases h; exact ⟨rfl, by assumption⟩
  · cases h; exact ⟨rfl, by assumption⟩
  · split at h <;> cases h <;> exact ⟨rfl, by assumption⟩

end IdlCompiler.Decimal
