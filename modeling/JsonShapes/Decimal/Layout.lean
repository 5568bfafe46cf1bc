import JsonShapes.Decimal.Shortest

/-! # Writing floats

A float is written with the fewest digits that read back. `Layout` holds what remains to be
decided: between which exponents the point is placed among the digits, and how an exponent is
written outside them.
-/
namespace JsonShapes
set_option autoImplicit false

structure Layout where
  lowest : Int
  highest : Int
  whole : String
  positive : String
  negative : String

namespace Layout

/-- JSON numbers: `1.0`, `0.00001` and `1000000000000000.0`, but `1e-6` and `1e+16`. -/
def json : Layout where
  lowest := -5
  highest := 15
  whole := ".0"
  positive := "e+"
  negative := "e-"

def zeros (n : Nat) : List Char := List.replicate n '0'

def write (l : Layout) (d : Decimal) : String :=
  let digits := Nat.toDigits 10 d.digits
  let leading := d.exponent + Int.ofNat digits.length - 1
  if l.lowest ≤ leading ∧ leading ≤ l.highest then
    if 0 ≤ d.exponent then
      String.ofList (digits ++ zeros d.exponent.toNat) ++ l.whole
    else if 0 ≤ leading then
      let point := leading.toNat + 1
      String.ofList (digits.take point ++ '.' :: digits.drop point)
    else
      String.ofList ('0' :: '.' :: zeros (-leading - 1).toNat ++ digits)
  else
    let mantissa := match digits with
      | [] => []
      | [c] => [c]
      | c :: rest => c :: '.' :: rest
    let power := if leading < 0 then l.negative else l.positive
    String.ofList mantissa ++ power ++ String.ofList (Nat.toDigits 10 leading.natAbs)

/-- The text of a finite float; zero keeps its sign. -/
def float (l : Layout) (x : Float) : String :=
  let bits := x.toBits.toNat
  let sign := if bits / Nat.pow 2 63 % 2 = 1 then "-" else ""
  if bits % Nat.pow 2 63 = 0 then sign ++ "0" ++ l.whole
  else sign ++ l.write (Decimal.ofFloat x.abs)

end Layout

end JsonShapes
