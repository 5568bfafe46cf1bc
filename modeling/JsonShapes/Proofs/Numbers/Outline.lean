import JsonShapes.Failure.Basic
import JsonShapes.Proofs.WellKeyed

/-! # Values with numbers left open

An outline is a value in which numbers may be marked. What stands for a marked number is filled in later, and
all values that an outline can be filled to are the same apart from there. Filling goes along with everything
that results are put together with, merging included, as long as no object is filled in.
-/
namespace JsonShapes
set_option autoImplicit false

namespace Checked
variable {ε α β γ δ : Type}

theorem both_map (f : α → γ) (g : β → δ) (l : Checked ε α) (r : Checked ε β) :
    both (l.map f) (r.map g) = (both l r).map (Prod.map f g) := by
  cases l <;> cases r <;> rfl

theorem mapFailures_map (f : α → β) (g : Accum ε → Accum ε) (r : Checked ε α) :
    mapFailures g (r.map f) = (mapFailures g r).map f := by
  cases r <;> rfl

end Checked

inductive Outline where
  | given (v : Value)
  | number (n : Number)
  | arr (items : List Outline)
  | obj (entries : List (String × Outline))

namespace Outline

section
variable (f : Number → Value)

mutual

/-- The value with `f n` in the place of each marked number `n`. -/
def fill : Outline → Value
  | given v => v
  | number n => f n
  | arr items => .arr (fillItems items)
  | obj entries => .obj (fillEntries entries)

def fillItems : List Outline → List Value
  | [] => []
  | o :: rest => o.fill :: fillItems rest

def fillEntries : List (String × Outline) → List (String × Value)
  | [] => []
  | (name, o) :: rest => (name, o.fill) :: fillEntries rest

end

theorem fill_arr (items : List Outline) : (arr items).fill f = .arr (items.map (fill f)) := by
  have hItems : fillItems f items = items.map (fill f) := by
    induction items with
    | nil => rfl
    | cons o rest ih => exact congrArg (o.fill f :: ·) ih
  exact congrArg Value.arr hItems

theorem fill_obj (entries : List (String × Outline)) :
    (obj entries).fill f = .obj (Entries.mapValues (fill f) entries) := by
  have hEntries : fillEntries f entries = Entries.mapValues (fill f) entries := by
    induction entries with
    | nil => rfl
    | cons e rest ih => exact congrArg ((e.1, e.2.fill f) :: ·) ih
  exact congrArg Value.obj hEntries

end

/-- The entries of an outline that can only be filled to an object. -/
def entries? : Outline → Option (Entries Outline)
  | given (.obj entries) => some (Entries.mapValues given entries)
  | obj entries => some entries
  | _ => none

def merge (left right : Outline) : Outline :=
  match left.entries?, right.entries? with
  | some left, some right => obj (Entries.merge left right)
  | _, _ => right

variable {f : Number → Value} {o : Outline}

theorem fill_eq_obj {entries : Entries Outline} (h : o.entries? = some entries) :
    o.fill f = .obj (Entries.mapValues (fill f) entries) := by
  unfold entries? at h
  split at h
  · rename_i values
    cases h
    have hSame : Entries.mapValues (fill f) (Entries.mapValues given values) = values := by
      rw [Entries.mapValues, Entries.mapValues, List.map_map]
      exact List.map_id values
    rw [hSame]
    rfl
  · cases h
    exact fill_obj f _
  · cases h

theorem kind_fill (hf : ∀ n, (f n).kind ≠ .object) (h : o.entries? = none) : (o.fill f).kind ≠ .object := by
  cases o with
  | given v =>
    intro hKind
    cases v with
    | obj entries => cases h
    | _ => cases hKind
  | number n => exact hf n
  | arr items => exact fun hKind => nomatch hKind
  | obj entries => cases h

theorem fill_merge (hf : ∀ n, (f n).kind ≠ .object) (left right : Outline) :
    (left.merge right).fill f = (left.fill f).merge (right.fill f) := by
  unfold merge
  cases hLeft : left.entries? with
  | none => exact (Value.merge_eq_right (.inl (kind_fill hf hLeft))).symm
  | some as =>
    cases hRight : right.entries? with
    | none => exact (Value.merge_eq_right (.inr (kind_fill hf hRight))).symm
    | some bs => rw [fill_obj, Entries.mapValues_merge, fill_eq_obj hLeft, fill_eq_obj hRight, Value.merge]

end Outline

end JsonShapes
