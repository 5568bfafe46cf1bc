import JsonShapes.Entries

/-! # JSON values

Integers and floats are kept apart: `1` and `1.0` are different values, and a decoder that asks for
any number keeps whichever it was given. Objects keep the order of their entries, but two objects
are equal when they hold equal values under the same names, in any order.
-/
namespace JsonShapes
set_option autoImplicit false

inductive Number where
  | int (n : Int)
  | float (x : Float)

namespace Number

def toFloat : Number → Float
  | int n => Float.ofInt n
  | float x => x

protected def beq : Number → Number → Bool
  | int m, int n => m == n
  | float x, float y => x == y
  | _, _ => false

instance : BEq Number := ⟨Number.beq⟩

end Number

inductive Value where
  | null
  | bool (b : Bool)
  | num (n : Number)
  | str (s : String)
  | arr (items : List Value)
  | obj (entries : List (String × Value))

instance : Inhabited Value := ⟨.null⟩

/-- What can be asked of a value without looking inside it. -/
inductive Kind where
  | null
  | boolean
  | number
  | string
  | array
  | object
deriving DecidableEq

/-- The wording for a value of this kind in failures. -/
def Kind.expected : Kind → String
  | .null => "null"
  | .boolean => "boolean"
  | .number => "number"
  | .string => "string"
  | .array => "Array<unknown>"
  | .object => "Record<string, unknown>"

namespace Value

def kind : Value → Kind
  | null => .null
  | bool _ => .boolean
  | num _ => .number
  | str _ => .string
  | arr _ => .array
  | obj _ => .object

/-- JSON has no infinities and no NaN; they are written as null. -/
def ofFloat (x : Float) : Value := if x.isFinite then num (.float x) else null

def ofInt (n : Int) : Value := num (.int n)

def toFloat? : Value → Option Float
  | num n => some n.toFloat
  | _ => none

def string? : Value → Option String
  | str s => some s
  | _ => none

/-- The value under `name`, when this is an object that has one. -/
def get? (v : Value) (name : String) : Option Value :=
  match v with
  | obj entries => Entries.get? entries name
  | _ => none

mutual

protected def beq : Value → Value → Bool
  | null, null => true
  | bool a, bool b => a == b
  | num m, num n => m == n
  | str s, str t => s == t
  | arr xs, arr ys => beqItems xs ys
  | obj xs, obj ys => xs.length == ys.length && beqEntries xs ys
  | _, _ => false

def beqItems : List Value → List Value → Bool
  | [], [] => true
  | x :: xs, y :: ys => Value.beq x y && beqItems xs ys
  | _, _ => false

def beqEntries : List (String × Value) → List (String × Value) → Bool
  | [], _ => true
  | (k, v) :: rest, ys =>
    (match Entries.get? ys k with
      | some w => Value.beq v w
      | none => false) && beqEntries rest ys

end

instance : BEq Value := ⟨Value.beq⟩

mutual

/-- Scalars have depth zero; a container is one deeper than its deepest element. -/
def depth : Value → Nat
  | arr items => depthItems items + 1
  | obj entries => depthEntries entries + 1
  | _ => 0

def depthItems : List Value → Nat
  | [] => 0
  | v :: rest => max (depth v) (depthItems rest)

def depthEntries : List (String × Value) → Nat
  | [] => 0
  | (_, v) :: rest => max (depth v) (depthEntries rest)

end

/-- Two objects merge entry by entry, the right one winning; any other pair gives the right value. -/
def merge : Value → Value → Value
  | obj left, obj right => obj (Entries.merge left right)
  | _, right => right

/-! ## Readings that cannot fail

A value of another kind reads as the empty or zero one.
-/

def entries : Value → List (String × Value)
  | obj entries => entries
  | _ => []

def items : Value → List Value
  | arr items => items
  | _ => []

def orEmptyString : Value → Value
  | str s => str s
  | _ => str ""

def orZero (v : Value) : Value := ofFloat (v.toFloat?.getD 0.0)

def orFalse : Value → Value
  | bool b => bool b
  | _ => bool false

def orEmptyArray (v : Value) : Value := arr v.items

def orEmptyObject (v : Value) : Value := obj v.entries

end Value

end JsonShapes
