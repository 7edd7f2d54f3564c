import RecordStore.Binary64
/-!
# Shortest decimals

`Decimal.shortest` finds, for a positive finite double, the decimal with the fewest digits that
reads back as that double, and of those the nearest. All of it happens in units of `10 ^ -1076`,
in which every double and every midpoint between two doubles is a natural number.
`Decimal.positional` writes a decimal without an exponent.
-/

namespace RecordStore

/-- The number `coefficient * 10 ^ exponent`. -/
structure Decimal where
  coefficient : Nat
  exponent : Int
  deriving DecidableEq

namespace Decimal

/-- The values that round to one double: `value - below` to `value + above`, in units of
`10 ^ -1076`, the ends among them when `closed`. -/
structure Interval where
  value : Nat
  below : Nat
  above : Nat
  closed : Bool

/-- The interval of the double `significand * 2 ^ place`, in units of `2 ^ -1074`. Halfway to a
neighbour is half a place, but a quarter of one downward from a power of two; an even significand
wins the ties at both ends. -/
def Interval.ofDouble (significand place : Nat) : Interval :=
  let quarter := Nat.pow 2 place * Nat.pow 5 1076
  { value := 4 * significand * quarter
    below := if significand = Nat.pow 2 52 ∧ 0 < place then quarter else 2 * quarter
    above := 2 * quarter
    closed := significand % 2 = 0 }

/-- The multiple of `step` in the interval that is nearest to its value, the larger of two that are
equally near. Only the two neighbours of the value can be nearest. -/
def Interval.nearestMultiple? (i : Interval) (step : Nat) : Option Nat :=
  let lower := i.value / step
  let down := i.value % step
  let up := step - down
  let within (distance room : Nat) : Bool := if i.closed then distance ≤ room else distance < room
  match within down i.below, within up i.above with
  | true, true => some (if down < up then lower else lower + 1)
  | true, false => some lower
  | false, true => some (lower + 1)
  | false, false => none

/-- The shortest decimal of a positive double. Seventeen digits always suffice, so the last case is
never reached. -/
def shortest (significand place : Nat) : Decimal :=
  let i := Interval.ofDouble significand place
  let width := (Nat.toDigits 10 i.value).length
  let ofDigits (count : Nat) : Option Decimal :=
    (i.nearestMultiple? (Nat.pow 10 (width - count))).map (⟨·, (width - count : Nat) - 1076⟩)
  ((List.range' 1 17).findSome? ofDigits).getD ⟨i.value, -1076⟩

/-- A decimal without an exponent: the point only where digits follow it, and no zero at their
end. -/
def positional (d : Decimal) : String :=
  let digits := Nat.toDigits 10 d.coefficient
  if 0 ≤ d.exponent then String.ofList (digits ++ List.replicate d.exponent.toNat '0')
  else
    let places := (-d.exponent).toNat
    let padded := List.replicate (places + 1 - digits.length) '0' ++ digits
    let whole := padded.take (padded.length - places)
    let fraction := (padded.drop (padded.length - places)).reverse.dropWhile (· == '0') |>.reverse
    String.ofList (if fraction.isEmpty then whole else whole ++ '.' :: fraction)

end Decimal

/-- The text of a double: the shortest positional decimal that reads back as it. A NaN has no
sign. -/
def Binary64.text (bits : UInt64) : String :=
  let sign := if isNegative bits then "-" else ""
  match classify (magnitude bits) with
  | .nan => "NaN"
  | .infinite => sign ++ "inf"
  | .finite 0 _ => sign ++ "0"
  | .finite significand place => sign ++ (Decimal.shortest significand place).positional

end RecordStore
