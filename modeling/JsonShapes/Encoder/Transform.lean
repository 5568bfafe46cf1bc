import JsonShapes.Value.Basic

/-! # Transforms

A transform turns a value into the value that is written for it and never fails. A value of the wrong
kind is read as an empty one, so that the result always has the declared shape.
-/
namespace JsonShapes
set_option autoImplicit false

abbrev Transform (m : Type → Type) := Value → m Value

namespace Transform
variable {m : Type → Type} [Monad m]

def convert (f : Value → Value) : Transform m := fun v => pure (f v)

def compose (first next : Transform m) : Transform m := fun v => do next (← first v)

def nullable (or : Transform m) : Transform m
  | .null => pure .null
  | v => or v

/-- Every declared property and no other; a missing one is transformed from null. -/
def object (props : List (String × Transform m)) : Transform m := fun v => do
  let fields ← props.mapM fun p => do
    let w ← p.2 ((Entries.get? v.entries p.1).getD .null)
    return (p.1, w)
  return .obj (Entries.ofList fields)

/-- The declared properties that are there; a null one stays null. -/
def partialObject (props : List (String × Transform m)) : Transform m := fun v => do
  let present := props.filterMap fun p =>
    (Entries.get? v.entries p.1).map fun raw => (p.1, p.2, raw)
  let fields ← present.mapM fun (p : String × Transform m × Value) =>
    match p with
    | (name, _, .null) => return (name, .null)
    | (name, transform, raw) => return (name, ← transform raw)
  return .obj (Entries.ofList fields)

def record (of : Transform m) : Transform m := fun v => do
  let fields ← v.entries.mapM fun e => do
    let w ← of e.2
    return (e.1, w)
  return .obj (Entries.ofList fields)

def array (of : Transform m) : Transform m := fun v => return .arr (← v.items.mapM of)

/-- Positions beyond the last slot are dropped, slots beyond the last position too. -/
def tuple (slots : List (Transform m)) : Transform m := fun v =>
  return .arr (← (v.items.zip slots).mapM fun p => p.2 p.1)

def inter (left right : Transform m) : Transform m := fun v => do
  let l ← left v
  let r ← right v
  return l.merge r

/-- A value whose tag names no member is left alone. Of several members with one name the last
counts. -/
def tagged (tag : String) (members : List (String × Transform m)) : Transform m := fun v =>
  match ((v.get? tag).bind Value.string?).bind (Entries.get? (Entries.ofList members)) with
  | some transform => transform v
  | none => pure v

end Transform

end JsonShapes
