/-! # Accumulations

An accumulation holds at least one value. Joining two of them allocates a single node and looks into
neither side, so collecting failures never copies what has been collected before; whoever reads an
accumulation sees its values from left to right and need not know how they were joined.
-/
namespace JsonShapes
set_option autoImplicit false

inductive Accum (α : Type) where
  | single (a : α)
  | join (left right : Accum α)
deriving DecidableEq

namespace Accum
variable {α β : Type}

/-- One value per node: `onSingle` at the values, `onJoin` where two sides meet. -/
def fold (onSingle : α → β) (onJoin : β → β → β) : Accum α → β
  | single a => onSingle a
  | join l r => onJoin (fold onSingle onJoin l) (fold onSingle onJoin r)

def map (f : α → β) : Accum α → Accum β
  | single a => single (f a)
  | join l r => join (map f l) (map f r)

/-- The values from left to right. -/
def toList : Accum α → List α
  | single a => [a]
  | join l r => toList l ++ toList r

def length : Accum α → Nat
  | single _ => 1
  | join l r => length l + length r

def first : Accum α → α
  | single a => a
  | join l _ => first l

def depth : Accum α → Nat
  | single _ => 0
  | join l r => max (depth l) (depth r) + 1

/-- Joins each item with its right neighbour; an odd one out stays alone. -/
def pairUp : List (Accum α) → List (Accum α)
  | a :: b :: rest => join a b :: pairUp rest
  | rest => rest

theorem length_pairUp_le (items : List (Accum α)) : (pairUp items).length ≤ items.length := by
  fun_induction pairUp items with
  | case1 a b rest ih => simp only [List.length_cons]; omega
  | case2 rest => exact Nat.le_refl _

/-- Joins all items in order, in rounds that each halve their number, so that the result is as
shallow as it can be. -/
def joinAll (head : Accum α) : List (Accum α) → Accum α
  | [] => head
  | second :: rest => joinAll (join head second) (pairUp rest)
termination_by rest => rest.length
decreasing_by exact Nat.lt_succ_of_le (length_pairUp_le rest)

@[simp] theorem toList_single (a : α) : toList (single a) = [a] := rfl

@[simp] theorem toList_join (l r : Accum α) : toList (join l r) = toList l ++ toList r := rfl

end Accum

end JsonShapes
