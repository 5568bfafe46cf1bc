import JsonShapes.Failure.Drawing

/-! # Editing failures

Ways to change the failures of a shape before they are shown, and messages made from an input and its
failures.
-/
namespace JsonShapes
set_option autoImplicit false

namespace Failures

/-- Puts every failure at this level under a note of its own. -/
def noteEach (message : String) (failures : Failures String) : Failures String :=
  failures.map fun f => .note message (.single f)

/-- Replaces what was expected in the rejected values at this level. -/
def relabel (expected : String) (failures : Failures String) : Failures String :=
  failures.map fun f =>
    match f with
    | .leaf actual _ => .leaf actual expected
    | f => f

def append (actual : Value) (expected : String) (failures : Failures String) : Failures String :=
  .join failures (.single (.leaf actual expected))

def prepend (actual : Value) (expected : String) (failures : Failures String) : Failures String :=
  .join (.single (.leaf actual expected)) failures

def onlyFirst (failures : Failures String) : Failures String := .single failures.first

def joined (fallback : Failures String) (fs : List (Failure String)) : Failures String :=
  match fs with
  | [] => fallback
  | f :: rest => .joinAll (.single f) (rest.map .single)

/-- The same failures in the same order, joined in rounds. -/
def rebalance (failures : Failures String) : Failures String := joined failures failures.toList

def reverse (failures : Failures String) : Failures String :=
  joined failures failures.toList.reverse

def under (name : String) (failures : Failures String) : Failures String :=
  .single (.key name .optional failures)

end Failures

/-- A piece of a message about a failed input. -/
inductive MessagePart where
  | text (s : String)
  | input
  | count

namespace MessagePart

def render (input : Value) (failures : Failures String) : MessagePart → String
  | text s => s
  | .input => input.text
  | count => toString failures.length

def message (parts : List MessagePart) (input : Value) (failures : Failures String) : String :=
  String.join (parts.map (render input failures))

end MessagePart

end JsonShapes
