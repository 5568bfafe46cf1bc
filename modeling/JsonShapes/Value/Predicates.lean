import JsonShapes.Value.Basic

/-! # Ready-made predicates

Tests on single values, for refining a shape. A predicate about numbers or sizes is false of a value
that has none.
-/
namespace JsonShapes.Value
set_option autoImplicit false

/-- Code points of a string, elements of an array, entries of an object. -/
def size? : Value → Option Nat
  | str s => some s.length
  | arr items => some items.length
  | obj entries => some entries.length
  | _ => none

def isAbove (n : Int) (v : Value) : Bool :=
  match v.toFloat? with
  | some x => x > Float.ofInt n
  | none => false

def isBelow (n : Int) (v : Value) : Bool :=
  match v.toFloat? with
  | some x => x < Float.ofInt n
  | none => false

def isIntegral (v : Value) : Bool :=
  match v with
  | num (.int _) => true
  | num (.float x) => x.isFinite && x.floor == x
  | _ => false

/-- An even integer of the signed sixty-four bit range. -/
def isEven (v : Value) : Bool :=
  match v with
  | num (.int n) => decide (-Int.pow 2 63 ≤ n ∧ n < Int.pow 2 63 ∧ n % 2 = 0)
  | _ => false

/-- An integer of the unsigned sixty-four bit range. -/
def isUnsigned (v : Value) : Bool :=
  match v with
  | num (.int n) => decide (0 ≤ n ∧ n < Int.pow 2 64)
  | _ => false

def hasSizeAtLeast (n : Int) (v : Value) : Bool :=
  match v.size? with
  | some k => decide (n ≤ Int.ofNat k)
  | none => false

def hasSizeAtMost (n : Int) (v : Value) : Bool :=
  match v.size? with
  | some k => decide (Int.ofNat k ≤ n)
  | none => false

def has (name : String) (v : Value) : Bool := (v.get? name).isSome

end JsonShapes.Value
