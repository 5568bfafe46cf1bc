import JsonShapes.Accum.Cursor
import JsonShapes.Proofs.Accumulations.Values
import Mathlib.Logic.Function.Iterate

/-! # Enumerations

All ways to enumerate an accumulation give its values from left to right: folding it into lists, walking it
with a stack of what is pending, asking a cursor for one value after the other, and looking for the value at
a place. The walk is followed turn by turn: what has been yielded and what is pending always spell the same
list, and every turn takes one node off the work that is left, so the walk ends after one turn for each node.
-/
namespace JsonShapes.Accum
set_option autoImplicit false
variable {α β : Type}

/-! ## Places -/

/-- The value at a place counted from the left: the places of the right side come after all of the left. -/
def nth? : Accum α → Nat → Option α
  | single a, 0 => some a
  | single _, _ + 1 => none
  | join l r, k => if k < l.length then nth? l k else nth? r (k - l.length)

theorem nth?_eq (t : Accum α) (k : Nat) : t.nth? k = t.toList[k]? := by
  induction t generalizing k with
  | single a => cases k <;> rfl
  | join l r ihLeft ihRight =>
    rw [nth?, toList_join, List.getElem?_append, length_toList, ihLeft, ihRight]

/-- What is left of an accumulation when its values are forgotten. -/
def skeleton : Accum α → Accum Unit
  | single _ => single ()
  | join l r => join l.skeleton r.skeleton

theorem skeleton_map (f : α → β) (t : Accum α) : (t.map f).skeleton = t.skeleton := by
  induction t with
  | single a => rfl
  | join l r ihLeft ihRight => rw [map, skeleton, ihLeft, ihRight, skeleton]

theorem toList_map (f : α → β) (t : Accum α) : (t.map f).toList = t.toList.map f := by
  induction t with
  | single a => rfl
  | join l r ihLeft ihRight => rw [map, toList_join, ihLeft, ihRight, toList_join, List.map_append]

/-! ## Folding -/

theorem fold_singletons (t : Accum α) : t.fold (fun a => [a]) (· ++ ·) = t.toList := by
  induction t with
  | single a => rfl
  | join l r ihLeft ihRight => rw [fold, ihLeft, ihRight, toList_join]

/-- Joins the values of a list from the left. -/
def reduce (op : β → β → β) : List β → Option β
  | [] => none
  | b :: bs => some (bs.foldl op b)

theorem reduce_append {op : β → β → β} [Std.Associative op] {bs bs' : List β} {b b' : β}
    (h : reduce op bs = some b) (h' : reduce op bs' = some b') : reduce op (bs ++ bs') = some (op b b') := by
  cases bs with
  | nil => cases h
  | cons first rest =>
    cases bs' with
    | nil => cases h'
    | cons first' rest' =>
      cases h
      cases h'
      rw [List.cons_append, reduce, List.foldl_append, List.foldl_cons, List.foldl_assoc]

theorem reduce_map_toList (f : α → β) (op : β → β → β) [Std.Associative op] (t : Accum α) :
    reduce op (t.toList.map f) = some (t.fold f op) := by
  induction t with
  | single a => rfl
  | join l r ihLeft ihRight => rw [toList_join, List.map_append, reduce_append ihLeft ihRight, fold]

/-! ## Walking -/

/-- How many nodes there are, values and joins. -/
def nodes : Accum α → Nat
  | single _ => 1
  | join l r => nodes l + nodes r + 1

theorem nodes_eq (t : Accum α) : t.nodes + 1 = 2 * t.length := by
  induction t with
  | single a => rfl
  | join l r ihLeft ihRight =>
    rw [nodes, length]
    omega

/-- A walk on its way: the subtrees that are pending, the nearest one first, and the values yielded. -/
structure Walk (α : Type) where
  pending : List (Accum α)
  yielded : List α

namespace Walk

def start (t : Accum α) : Walk α := ⟨[t], []⟩

/-- One turn: a value that is nearest is yielded, a join is replaced by its two sides. -/
def turn : Walk α → Walk α
  | ⟨[], yielded⟩ => ⟨[], yielded⟩
  | ⟨single a :: rest, yielded⟩ => ⟨rest, yielded ++ [a]⟩
  | ⟨join l r :: rest, yielded⟩ => ⟨l :: r :: rest, yielded⟩

/-- All values, those that have been yielded and those to come. -/
def values (w : Walk α) : List α := w.yielded ++ w.pending.flatMap toList

/-- How many turns there are to come. -/
def work (w : Walk α) : Nat := w.pending.foldr (fun t n => t.nodes + n) 0

theorem values_turn (w : Walk α) : w.turn.values = w.values := by
  obtain ⟨pending, yielded⟩ := w
  cases pending with
  | nil => rfl
  | cons t rest =>
    cases t with
    | single a => simp [turn, values]
    | join l r => simp [turn, values]

theorem work_turn (w : Walk α) : w.turn.work = w.work - 1 := by
  obtain ⟨pending, yielded⟩ := w
  cases pending with
  | nil => rfl
  | cons t rest =>
    cases t with
    | single a =>
      simp only [turn, work, List.foldr_cons, nodes]
      omega
    | join l r =>
      simp only [turn, work, List.foldr_cons, nodes]
      omega

theorem values_iterate (turns : Nat) (w : Walk α) : (turn^[turns] w).values = w.values := by
  induction turns with
  | zero => rfl
  | succ turns ih => rw [Function.iterate_succ_apply', values_turn, ih]

theorem work_iterate (turns : Nat) (w : Walk α) : (turn^[turns] w).work = w.work - turns := by
  induction turns with
  | zero => rfl
  | succ turns ih => rw [Function.iterate_succ_apply', work_turn, ih, Nat.sub_sub]

theorem work_eq_zero_iff (w : Walk α) : w.work = 0 ↔ w.pending = [] := by
  obtain ⟨pending, yielded⟩ := w
  cases pending with
  | nil => simp [work]
  | cons t rest =>
    have hNodes := t.nodes_eq
    cases t <;> simp [work, nodes]

theorem ended_iff (turns : Nat) (w : Walk α) : (turn^[turns] w).pending = [] ↔ w.work ≤ turns := by
  rw [← work_eq_zero_iff, work_iterate, Nat.sub_eq_zero_iff_le]

theorem iterate_work (w : Walk α) : turn^[w.work] w = ⟨[], w.values⟩ := by
  have hEnded := (ended_iff w.work w).mpr (Nat.le_refl _)
  have hValues := values_iterate w.work w
  rw [values, hEnded, List.flatMap_nil, List.append_nil] at hValues
  rw [← hEnded, ← hValues]

theorem work_start (t : Accum α) : (start t).work = 2 * t.length - 1 := by
  have hNodes := t.nodes_eq
  simp only [work, start, List.foldr_cons, List.foldr_nil]
  omega

theorem values_start (t : Accum α) : (start t).values = t.toList := by
  simp [values, start]

end Walk

namespace Cursor

/-- Going down to a value turns over the joins above it and yields nothing yet. -/
theorem descend_turns (t : Accum α) (pending : List (Accum α)) (yielded : List α) :
    ∃ turns, Walk.turn^[turns] ⟨t :: pending, yielded⟩ =
      ⟨single (descend t pending).1 :: (descend t pending).2.pending, yielded⟩ := by
  induction t generalizing pending with
  | single a => exact ⟨0, rfl⟩
  | join l r ihLeft _ =>
    obtain ⟨turns, hTurns⟩ := ihLeft (r :: pending)
    exact ⟨turns + 1, hTurns⟩

theorem next?_turns (c : Cursor α) (yielded : List α) :
    match c.next? with
    | some (a, rest) =>
      ∃ turns, Walk.turn^[turns] ⟨c.pending, yielded⟩ = ⟨single a :: rest.pending, yielded⟩
    | none => c.pending = [] := by
  obtain ⟨pending⟩ := c
  cases pending with
  | nil => rfl
  | cons t rest => exact descend_turns t rest yielded

/-- The value that the cursor yields after `k` others. -/
def nth? : Nat → Cursor α → Option α
  | 0, c => c.next?.map Prod.fst
  | k + 1, c => c.next?.bind fun next => nth? k next.2

theorem nth?_eq (k : Nat) (c : Cursor α) : c.nth? k = (c.pending.flatMap toList)[k]? := by
  induction k generalizing c with
  | zero =>
    obtain ⟨pending⟩ := c
    cases pending with
    | nil => rfl
    | cons t rest =>
      rw [List.flatMap_cons, ← toList_descend]
      rfl
  | succ k ih =>
    obtain ⟨pending⟩ := c
    cases pending with
    | nil => rfl
    | cons t rest =>
      rw [List.flatMap_cons, ← toList_descend, List.getElem?_cons_succ, ← ih]
      rfl

end Cursor

/-! ## All of them -/

/-- Every way to enumerate the accumulation gives the list. -/
structure Enumerates (t : Accum α) (as : List α) : Prop where
  listed : t.toList = as
  folded : t.fold (fun a => [a]) (· ++ ·) = as
  ended : ∀ turns, (Walk.turn^[turns] (.start t)).pending = [] ↔ 2 * t.length - 1 ≤ turns
  walked : Walk.turn^[2 * t.length - 1] (.start t) = ⟨[], as⟩
  drained : t.cursor.drain = as
  taken : ∀ n, t.cursor.take n = as.take n
  yielded : ∀ k, t.cursor.nth? k = as[k]?
  placed : ∀ k, t.nth? k = as[k]?
  first : as.head? = some t.first
  counted : as.length = t.length

theorem enumerates_of_toList {t : Accum α} {as : List α} (h : t.toList = as) : t.Enumerates as := by
  subst h
  constructor
  case listed => rfl
  case folded => exact t.fold_singletons
  case ended =>
    intro turns
    rw [Walk.ended_iff, Walk.work_start]
  case walked => rw [← Walk.work_start, Walk.iterate_work, Walk.values_start]
  case drained => exact t.drain_cursor
  case taken => exact fun n => take_cursor n t
  case yielded =>
    intro k
    rw [Cursor.nth?_eq, cursor, List.flatMap_singleton]
  case placed => exact t.nth?_eq
  case first => exact t.head?_toList
  case counted => exact t.length_toList

theorem length_pos (t : Accum α) : 1 ≤ t.length := by
  have hNodes := t.nodes_eq
  omega

/-- All enumerations of an accumulation give the same list, which has at least one value and is told by the
place of each value in the tree. Each call of a cursor is a stretch of the walk that ends in front of a value.
Mapping keeps the tree and maps the list, joining puts two lists together, and folding with an associative
operation is joining the values of the list from the left. -/
theorem enumerations_agree :
    (∀ {α : Type} (t : Accum α), t.Enumerates t.toList ∧ 1 ≤ t.length) ∧
    (∀ {α : Type} (c : Cursor α) (yielded : List α),
      match c.next? with
      | some (a, rest) =>
        ∃ turns, Walk.turn^[turns] ⟨c.pending, yielded⟩ = ⟨single a :: rest.pending, yielded⟩
      | none => c.pending = []) ∧
    (∀ {α β : Type} (f : α → β) (t : Accum α),
      (t.map f).skeleton = t.skeleton ∧ (t.map f).Enumerates (t.toList.map f)) ∧
    (∀ {α : Type} (l r : Accum α), (join l r).Enumerates (l.toList ++ r.toList)) ∧
    ∀ {α β : Type} (f : α → β) (op : β → β → β) [Std.Associative op] (t : Accum α),
      reduce op (t.toList.map f) = some (t.fold f op) := by
  refine ⟨?_, Cursor.next?_turns, ?_, ?_, reduce_map_toList⟩
  · intro α t
    exact ⟨enumerates_of_toList rfl, t.length_pos⟩
  · intro α β f t
    exact ⟨skeleton_map f t, enumerates_of_toList (toList_map f t)⟩
  · intro α l r
    exact enumerates_of_toList (toList_join l r)

namespace Beads

def strung : Accum Nat := join (join (single 1) (join (single 20) (single 3))) (join (single 40) (single 5))

/-- Joining texts is associative, but not commutative. -/
theorem strung_enumerated :
    Std.Associative (fun a b : String => a ++ b) ∧ strung.Enumerates [1, 20, 3, 40, 5] ∧
      (strung.map (· + 1)).Enumerates [2, 21, 4, 41, 6] ∧
      reduce (· ++ ·) (["1", "20", "3", "40", "5"]) = some (strung.fold toString (· ++ ·)) := by
  obtain ⟨hEach, _, hMap, _, hReduce⟩ := enumerations_agree
  exact ⟨inferInstance, (hEach strung).1, (hMap (· + 1) strung).2, hReduce toString (· ++ ·) strung⟩

end Beads

end JsonShapes.Accum
