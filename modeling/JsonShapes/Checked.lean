import JsonShapes.Accum.Basic
import JsonShapes.Entries

/-! # Results that keep every failure

A checked result is a value or an accumulation of failures. Independent results are combined without
stopping at the first failure: all of them are made first, and then either all values or all
failures are handed on, in the order in which they were made.
-/
namespace JsonShapes
set_option autoImplicit false

abbrev Checked (ε α : Type) := Except (Accum ε) α

namespace Checked
variable {ε α β τ : Type}

def value? : Checked ε α → Option α
  | .ok a => some a
  | .error _ => none

def failures? : Checked ε α → Option (Accum ε)
  | .ok _ => none
  | .error e => some e

/-- Both values, or the failures of whichever side failed. -/
def both : Checked ε α → Checked ε β → Checked ε (α × β)
  | .ok a, .ok b => .ok (a, b)
  | .error e, .ok _ => .error e
  | .ok _, .error e => .error e
  | .error l, .error r => .error (.join l r)

/-- All values, or all failures joined in rounds. -/
def collect (results : List (Checked ε α)) : Checked ε (List α) :=
  match results.filterMap failures? with
  | [] => .ok (results.filterMap value?)
  | first :: rest => .error (.joinAll first rest)

theorem value?_map (f : α → β) (r : Checked ε α) : value? (r.map f) = (value? r).map f := by
  cases r <;> rfl

theorem failures?_map (f : α → β) (r : Checked ε α) : failures? (r.map f) = failures? r := by
  cases r <;> rfl

theorem collect_map (f : α → β) (results : List (Checked ε α)) :
    collect (results.map fun r => r.map f) = (collect results).map (List.map f) := by
  simp only [collect, List.filterMap_map, Function.comp_def, value?_map, failures?_map, ← List.map_filterMap]
  cases results.filterMap failures? <;> rfl

/-- Runs `f` on every item with its position, whatever fails on the way. -/
def traverseIndexed {m : Type → Type} [Monad m] (items : List τ)
    (f : Nat → τ → m (Checked ε α)) : m (Checked ε (List α)) := do
  return collect (← items.zipIdx.mapM fun item => f item.2 item.1)

/-- Runs `f` on every entry with its name; a repeated name keeps its first place and its last
value, but fails if any of its occurrences does. -/
def traverseKeyed {m : Type → Type} [Monad m] (entries : List (String × τ))
    (f : String → τ → m (Checked ε α)) : m (Checked ε (Entries α)) := do
  let results ← entries.mapM fun e => do
    let result ← f e.1 e.2
    return result.map fun a => (e.1, a)
  return (collect results).map Entries.ofList

def mapFailures (f : Accum ε → Accum ε) : Checked ε α → Checked ε α
  | .ok a => .ok a
  | .error e => .error (f e)

end Checked

end JsonShapes
