import JsonShapes.Accum.Basic

/-! # Walking an accumulation

A cursor yields the values of an accumulation one at a time. It keeps the subtrees still to be
visited on a stack, the nearest one on top, and unfolds no more of a subtree than the next value
needs. Walked to its end, it has yielded the list of the values.
-/
namespace JsonShapes.Accum
set_option autoImplicit false
variable {α : Type}

structure Cursor (α : Type) where
  pending : List (Accum α)

def cursor (t : Accum α) : Cursor α := ⟨[t]⟩

namespace Cursor

/-- Follows the left sides down to a value, stacking the right sides passed on the way. -/
def descend : Accum α → List (Accum α) → α × Cursor α
  | single a, pending => (a, ⟨pending⟩)
  | join l r, pending => descend l (r :: pending)

def next? : Cursor α → Option (α × Cursor α)
  | ⟨[]⟩ => none
  | ⟨t :: pending⟩ => some (descend t pending)

/-- At most the next `n` values. -/
def take : Nat → Cursor α → List α
  | 0, _ => []
  | n + 1, c =>
    match c.next? with
    | some (a, rest) => a :: take n rest
    | none => []

def size : List (Accum α) → Nat
  | [] => 0
  | t :: rest => t.length + size rest

theorem size_descend (t : Accum α) (pending : List (Accum α)) :
    size (descend t pending).2.pending + 1 = t.length + size pending := by
  induction t generalizing pending with
  | single a => simp [descend, length, Nat.add_comm]
  | join l r ihl _ => simp only [descend, ihl, size, length]; omega

/-- All values that are left. -/
def drain : Cursor α → List α
  | ⟨[]⟩ => []
  | ⟨t :: pending⟩ => (descend t pending).1 :: drain (descend t pending).2
termination_by c => size c.pending
decreasing_by
  have h := size_descend t pending
  simp only [size]
  omega

/-- What is pending spells the values that are left, the nearest subtree first. -/
theorem toList_descend (t : Accum α) (pending : List (Accum α)) :
    (descend t pending).1 :: (descend t pending).2.pending.flatMap toList =
      t.toList ++ pending.flatMap toList := by
  induction t generalizing pending with
  | single a => rfl
  | join l r ihLeft _ => rw [descend, ihLeft, List.flatMap_cons, toList_join, List.append_assoc]

theorem take_eq (n : Nat) (c : Cursor α) : take n c = (c.pending.flatMap toList).take n := by
  induction n generalizing c with
  | zero => rfl
  | succ n ih =>
    obtain ⟨pending⟩ := c
    cases pending with
    | nil => rfl
    | cons t pending =>
      rw [List.flatMap_cons, ← toList_descend, List.take_succ_cons, ← ih]
      rfl

theorem drain_eq (c : Cursor α) : c.drain = c.pending.flatMap toList := by
  fun_induction drain c with
  | case1 => rfl
  | case2 t pending ih => rw [ih, toList_descend, List.flatMap_cons]

end Cursor

theorem take_cursor (n : Nat) (t : Accum α) : t.cursor.take n = t.toList.take n := by
  rw [Cursor.take_eq, cursor, List.flatMap_singleton]

theorem drain_cursor (t : Accum α) : t.cursor.drain = t.toList := by
  rw [Cursor.drain_eq, cursor, List.flatMap_singleton]

end JsonShapes.Accum
