import JsonShapes.Accum.Basic
import JsonShapes.Checked
import JsonShapes.Value.Basic

/-! # Failures

A failure is a rejected value with what was expected in its place, or failures found further in: under
a property, at a position, in a branch of a union, in a named definition, or beneath a note. The
failures found at one place are always an accumulation, so siblings are shown together.
-/
namespace JsonShapes
set_option autoImplicit false

/-- Whether a property or a position has to be there. -/
inductive Presence where
  | required
  | optional
deriving DecidableEq

def Presence.text : Presence → String
  | .required => "required"
  | .optional => "optional"

inductive Failure (ε : Type) where
  | leaf (actual : Value) (expected : ε)
  | key (name : String) (presence : Presence) (within : Accum (Failure ε))
  | index (position : Nat) (presence : Presence) (within : Accum (Failure ε))
  | member (branch : Nat) (within : Accum (Failure ε))
  | lazy (id : String) (within : Accum (Failure ε))
  | note (message : ε) (within : Accum (Failure ε))

abbrev Failures (ε : Type) := Accum (Failure ε)

/-- The outcome of decoding. -/
abbrev Decoded (α : Type) := Checked (Failure String) α

namespace Decoded
variable {α : Type}

def reject (actual : Value) (expected : String) : Decoded α :=
  .error (.single (.leaf actual expected))

/-- Locates the failures of a result. -/
def within (locate : Failures String → Failure String) (result : Decoded α) : Decoded α :=
  Checked.mapFailures (fun e => .single (locate e)) result

end Decoded

end JsonShapes
