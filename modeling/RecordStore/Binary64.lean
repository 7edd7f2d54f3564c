/-!
# Double-precision bit patterns

A double is handled as its 64-bit pattern and never as a runtime float, so that every statement
about it is one about natural numbers. `Binary64.Class` says what a pattern stands for: a finite
value is a whole multiple `significand * 2 ^ place` of the smallest positive double `2 ^ -1074`.
`ofQuotient` and `ofScientific` go the other way and round to the nearest double, a tie to the
even significand. Powers are spelled `Nat.pow`, which is the same function whether or not there is
a monoid on the natural numbers in view.
-/

namespace RecordStore.Binary64

/-- The sign bit of a pattern. -/
def isNegative (bits : UInt64) : Bool :=
  Nat.pow 2 63 ≤ bits.toNat

/-- A pattern without its sign, as a natural number. -/
def magnitude (bits : UInt64) : Nat :=
  bits.toNat % Nat.pow 2 63

/-- The magnitude of the infinities; everything above it is a NaN. -/
def infinity : Nat :=
  2047 * Nat.pow 2 52

/-- What a magnitude stands for. A finite one is `significand * 2 ^ place` in units of
`2 ^ -1074`. -/
inductive Class where
  | finite (significand place : Nat)
  | infinite
  | nan
  deriving DecidableEq

/-- Reads the exponent and fraction fields of a magnitude. The exponent field `0` holds the
subnormal values, which have the place of the field `1` but no hidden bit. -/
def classify (magnitude : Nat) : Class :=
  if magnitude < Nat.pow 2 52 then .finite magnitude 0
  else if magnitude < infinity then
    .finite (Nat.pow 2 52 + magnitude % Nat.pow 2 52) (magnitude / Nat.pow 2 52 - 1)
  else if magnitude = infinity then .infinite
  else .nan

/-- The natural number nearest to `num / den`, a tie to the even one. -/
def roundHalfEven (num den : Nat) : Nat :=
  let quotient := num / den
  let twice := 2 * (num % den)
  if twice < den then quotient
  else if den < twice then quotient + 1
  else quotient + quotient % 2

/-- The binary exponent of a positive quotient: `2 ^ e ≤ num / den < 2 ^ (e + 1)`. -/
def exponent (num den : Nat) : Int :=
  let guess := (num.log2 : Int) - den.log2
  let reached :=
    if 0 ≤ guess then den * Nat.pow 2 guess.toNat ≤ num else den ≤ num * Nat.pow 2 (-guess).toNat
  if reached then guess else guess - 1

/-- The magnitude of the double nearest to `num / den`, or `none` when that is beyond the largest
finite one. The significand kept has 53 bits, fewer where its last place would fall below
`2 ^ -1074`; a significand rounded up to `2 ^ 53` carries into the exponent field by itself. -/
def ofQuotient (num den : Nat) : Option Nat :=
  if num = 0 then some 0
  else
    let last := max (exponent num den - 52) (-1074)
    let significand :=
      if 0 ≤ last then roundHalfEven num (den * Nat.pow 2 last.toNat)
      else roundHalfEven (num * Nat.pow 2 (-last).toNat) den
    let magnitude := (last + 1074).toNat * Nat.pow 2 52 + significand
    if magnitude < infinity then some magnitude else none

/-- The magnitude of the double nearest to `coefficient * 10 ^ power`, or `none` when that is
beyond the largest finite one. Powers far outside the range of doubles are settled without
computing them. -/
def ofScientific (coefficient : Nat) (power : Int) : Option Nat :=
  if coefficient = 0 then some 0
  else if 400 < power then none
  else if power + coefficient.log2 < -400 then some 0
  else if 0 ≤ power then ofQuotient (coefficient * Nat.pow 10 power.toNat) 1
  else ofQuotient coefficient (Nat.pow 10 (-power).toNat)

/-- The pattern of a signed magnitude. -/
def pattern (negative : Bool) (magnitude : Nat) : UInt64 :=
  .ofNat (if negative then Nat.pow 2 63 + magnitude else magnitude)

end RecordStore.Binary64
