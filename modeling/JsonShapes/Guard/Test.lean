import JsonShapes.Value.Basic

/-! # Tests

A test answers whether a value is acceptable and nothing more. Tests may have effects, such as
resolving a definition, so the order in which they run is part of their meaning: each combinator
stops at the first answer that settles the question.
-/
namespace JsonShapes
set_option autoImplicit false

abbrev Test (m : Type → Type) := Value → m Bool

namespace Test
variable {m : Type → Type} [Monad m]

def any : Test m := fun _ => pure true

def kind (k : Kind) : Test m := fun v => pure (v.kind = k)

def literal (values : List Value) : Test m := fun v => pure (values.contains v)

def refine (of : Test m) (holds : Value → Bool) : Test m := fun v => do
  if ← of v then return holds v else return false

def nullable (or : Test m) : Test m
  | .null => pure true
  | v => or v

/-- A missing property is tested as null. -/
def object (props : List (String × Test m)) : Test m
  | .obj entries => props.allM fun p => p.2 ((Entries.get? entries p.1).getD .null)
  | _ => pure false

/-- A property that is null counts as missing, and a missing one passes. -/
def partialObject (props : List (String × Test m)) : Test m
  | .obj entries => props.allM fun p =>
    match Entries.get? entries p.1 with
    | none | some .null => pure true
    | some raw => p.2 raw
  | _ => pure false

def record (of : Test m) : Test m
  | .obj entries => entries.allM fun e => of e.2
  | _ => pure false

def array (of : Test m) : Test m
  | .arr items => items.allM of
  | _ => pure false

/-- A missing position is tested as null; a position too many is refused before any test runs. -/
def tuple (slots : List (Test m)) : Test m
  | .arr items =>
    if items.length ≤ slots.length then
      slots.zipIdx.allM fun slot => slot.1 (items[slot.2]?.getD .null)
    else pure false
  | _ => pure false

def union (members : List (Test m)) : Test m := fun v => members.anyM fun t => t v

def inter (left right : Test m) : Test m := fun v => do
  if ← left v then right v else return false

/-- Of several members with one name the last counts. -/
def tagged (tag : String) (members : List (String × Test m)) : Test m := fun v =>
  match ((v.get? tag).bind Value.string?).bind (Entries.get? (Entries.ofList members)) with
  | some t => t v
  | none => pure false

end Test

end JsonShapes
