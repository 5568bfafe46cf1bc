import JsonShapes.Registry.Basic

/-! # Scripts

The plainest thunks: a script defines further scripts in the registry that runs it and then returns a
number.
-/
namespace JsonShapes
set_option autoImplicit false

inductive Script where
  | mk (value : Int) (also : List (String × Nat × Script))

namespace Script

def value : Script → Int
  | mk value _ => value

def also : Script → List (String × Nat × Script)
  | mk _ also => also

/-- Defines what the script names and returns its number. -/
def run {m : Type → Type} [Monad m] (s : Script) : StateT (Registry Script Int) m Int := do
  s.also.forM fun entry => modify fun r => (r.define entry.1 entry.2.1 entry.2.2).2
  return s.value

end Script

end JsonShapes
