import JsonShapes.Value.Predicates
import JsonShapes.Value.Writer

/-! # Ready-made conversions

Total functions from values to values, for use with `map`, `contramap` and `imap`.
-/
namespace JsonShapes.Value
set_option autoImplicit false

def wrapped (name : String) (v : Value) : Value := obj [(name, v)]

def member (name : String) (v : Value) : Value := (v.get? name).getD null

def listed (v : Value) : Value := arr [v]

def quoted (v : Value) : Value := str v.text

/-- A number becomes a float of twice its size. -/
def doubled : Value → Value
  | num n => ofFloat (n.toFloat * 2.0)
  | v => v

def sized (v : Value) : Value :=
  match v.size? with
  | some n => ofInt (Int.ofNat n)
  | none => null

/-- Only the letters of the Latin alphabet have an upper case here. -/
def uppercased : Value → Value
  | str s => str (s.map fun c => if 'a' ≤ c ∧ c ≤ 'z' then Char.ofNat (c.toNat - 32) else c)
  | v => v

end JsonShapes.Value
