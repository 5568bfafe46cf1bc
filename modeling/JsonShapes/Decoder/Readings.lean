import JsonShapes.Decoder.Basic
import JsonShapes.Text.Digits

/-! # Ready-made readings

Steps for `parse`: each turns a decoded value into another one or fails.
-/
namespace JsonShapes.Decoded
set_option autoImplicit false

def yesOrNo (v : Value) : Decoded Value :=
  match v with
  | .str "yes" => .ok (.bool true)
  | .str "no" => .ok (.bool false)
  | v => reject v "\"yes\" | \"no\""

/-- One to fifteen decimal digits. -/
def digits (v : Value) : Decoded Value :=
  match v with
  | .str s =>
    let cs := s.toList
    if 1 ≤ cs.length ∧ cs.length ≤ 15 ∧ cs.all Char.isDigit then
      .ok (.ofInt (Int.ofNat (Text.digitsValue cs)))
    else reject v "digits"
  | v => reject v "digits"

/-- Fails twice, whatever it is given. -/
def never (v : Value) : Decoded Value :=
  .error (.join (.single (.leaf v "first")) (.single (.leaf v "second")))

end JsonShapes.Decoded
