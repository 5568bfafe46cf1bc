/-! # The fewest digits that read back

A float stands for every real number that rounds to it. These form an interval around its own
value, and among the decimal numbers in that interval the shortest one names the float; of several
equally short ones the nearest, and of two equally near ones the one whose last digit is even.
All comparisons are made between natural numbers, so nothing is rounded on the way.
-/
namespace JsonShapes
set_option autoImplicit false

/-- The number `digits * 10 ^ exponent`. -/
structure Decimal where
  digits : Nat
  exponent : Int
deriving DecidableEq

/-- A positive float: its value is `4 * significand` units, a unit being `2 ^ scale`, and the reals
that round to it lie between `below` and `above` units. -/
structure RoundingInterval where
  significand : Nat
  scale : Int
  below : Nat
  above : Nat

namespace RoundingInterval

/-- The interval of the positive finite float with these bits. -/
def ofBits (bits : Nat) : RoundingInterval :=
  let fraction := bits % Nat.pow 2 52
  let biased := bits / Nat.pow 2 52 % Nat.pow 2 11
  let significand := if biased = 0 then fraction else fraction + Nat.pow 2 52
  let exponent : Int := if biased = 0 then -1074 else Int.ofNat biased - 1075
  { significand
    scale := exponent - 2
    below := if fraction = 0 ∧ 1 < biased then 4 * significand - 1 else 4 * significand - 2
    above := 4 * significand + 2 }

/-- The sign of `digits * 10 ^ exponent - units * 2 ^ scale`. -/
def compareTo (d : Decimal) (units : Nat) (scale : Int) : Ordering :=
  compare (d.digits * Nat.pow 10 d.exponent.toNat * Nat.pow 2 (-scale).toNat)
    (units * Nat.pow 2 scale.toNat * Nat.pow 10 (-d.exponent).toNat)

/-- The ends of the interval round to an even significand. -/
def contains (i : RoundingInterval) (d : Decimal) : Bool :=
  let lower := compareTo d i.below i.scale
  let upper := compareTo d i.above i.scale
  if i.significand % 2 = 0 then lower != .lt && upper != .gt else lower == .gt && upper == .lt

/-- The greatest multiple of `10 ^ exponent` that is not above the value. -/
def floorAt (i : RoundingInterval) (exponent : Int) : Nat :=
  4 * i.significand * Nat.pow 2 i.scale.toNat * Nat.pow 10 (-exponent).toNat /
    (Nat.pow 2 (-i.scale).toNat * Nat.pow 10 exponent.toNat)

/-- The exponent of the value's leading digit. -/
def leadingExponent (i : RoundingInterval) : Int :=
  let whole := i.floorAt 0
  if 0 < whole then Int.ofNat (Nat.toDigits 10 whole).length - 1
  else Int.ofNat (Nat.toDigits 10 (i.floorAt (-400))).length - 401

/-- Of the two neighbours of the value among the multiples of `10 ^ exponent`, the one that lies in
the interval, or the nearer one when both do. -/
def pick? (i : RoundingInterval) (exponent : Int) : Option Decimal :=
  let floor := i.floorAt exponent
  let low : Decimal := ⟨floor, exponent⟩
  let high : Decimal := ⟨floor + 1, exponent⟩
  match i.contains low, i.contains high with
  | true, true =>
    match compareTo ⟨2 * floor + 1, exponent⟩ (8 * i.significand) i.scale with
    | .gt => some low
    | .lt => some high
    | .eq => some (if floor % 2 = 0 then low else high)
  | true, false => some low
  | false, true => some high
  | false, false => none

/-- Seventeen digits always suffice. -/
def shortest (i : RoundingInterval) : Decimal :=
  let leading := i.leadingExponent
  match (List.range 17).findSome? fun n => i.pick? (leading - Int.ofNat n) with
  | some d => d
  | none => ⟨i.floorAt (leading - 17), leading - 17⟩

end RoundingInterval

namespace Decimal

/-- Moves trailing zeros of the digits into the exponent. -/
def trimmed (d : Decimal) : Decimal := go d.digits d.digits d.exponent
where
  go : Nat → Nat → Int → Decimal
    | 0, digits, exponent => ⟨digits, exponent⟩
    | fuel + 1, digits, exponent =>
      if digits ≠ 0 ∧ digits % 10 = 0 then go fuel (digits / 10) (exponent + 1)
      else ⟨digits, exponent⟩

end Decimal

/-- The shortest decimal that reads back as this positive finite float. -/
def Decimal.ofFloat (x : Float) : Decimal :=
  (RoundingInterval.ofBits x.toBits.toNat).shortest.trimmed

end JsonShapes
