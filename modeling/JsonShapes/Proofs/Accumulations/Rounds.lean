import JsonShapes.Decoder.Check
import JsonShapes.Proofs.Accumulations.Values
import Mathlib.Algebra.Group.Nat.Defs
import Mathlib.Data.List.Forall2
import Mathlib.Data.Nat.Log
import Mathlib.Logic.Function.Iterate

/-! # Joining in rounds

Each round of `joinAll` joins neighbours, so it halves how many accumulations there are and makes the deepest
of them one deeper. After as many rounds as the binary logarithm of their number, rounded up, one is left,
and no way to join that many values is shallower.
-/
namespace JsonShapes
set_option autoImplicit false

namespace Accum
variable {α : Type}

/-- One round: what comes first is kept apart from the items after it. -/
def round : Accum α × List (Accum α) → Accum α × List (Accum α)
  | (head, []) => (head, [])
  | (head, second :: rest) => (join head second, pairUp rest)

/-- The depth of the deepest of several accumulations. -/
def deepest : List (Accum α) → Nat
  | [] => 0
  | t :: rest => max t.depth (deepest rest)

/-! ## The number of rounds -/

theorem length_pairUp : ∀ items : List (Accum α), (pairUp items).length = (items.length + 1) / 2
  | [] => by simp [pairUp]
  | [_] => by simp [pairUp]
  | a :: b :: rest => by
    simp only [pairUp, List.length_cons, length_pairUp rest]
    omega

theorem length_round (s : Accum α × List (Accum α)) : (round s).2.length = s.2.length / 2 := by
  obtain ⟨head, items⟩ := s
  cases items with
  | nil => simp [round]
  | cons second rest => rw [round, length_pairUp, List.length_cons]

theorem joinAll_round (s : Accum α × List (Accum α)) :
    joinAll (round s).1 (round s).2 = joinAll s.1 s.2 := by
  obtain ⟨head, items⟩ := s
  cases items with
  | nil => rfl
  | cons second rest => rw [joinAll, round]

theorem length_iterate_round (s : Accum α × List (Accum α)) (rounds : Nat) :
    (round^[rounds] s).2.length = s.2.length / 2 ^ rounds := by
  induction rounds with
  | zero => simp
  | succ rounds ih =>
    rw [Function.iterate_succ_apply', length_round, ih, Nat.div_div_eq_div_mul, Nat.pow_succ]

theorem joinAll_iterate_round (s : Accum α × List (Accum α)) (rounds : Nat) :
    joinAll (round^[rounds] s).1 (round^[rounds] s).2 = joinAll s.1 s.2 := by
  induction rounds with
  | zero => rfl
  | succ rounds ih => rw [Function.iterate_succ_apply', joinAll_round, ih]

theorem iterate_round_done_iff (head : Accum α) (items : List (Accum α)) (rounds : Nat) :
    (round^[rounds] (head, items)).2 = [] ↔ Nat.clog 2 (items.length + 1) ≤ rounds := by
  rw [← List.length_eq_zero_iff, length_iterate_round, Nat.div_eq_zero_iff,
    Nat.clog_le_iff_le_pow Nat.one_lt_two]
  have hPos := Nat.two_pow_pos rounds
  dsimp only
  omega

/-! ## The depth -/

theorem deepest_pairUp_le (items : List (Accum α)) : deepest (pairUp items) ≤ deepest items + 1 := by
  fun_induction pairUp items with
  | case1 a b rest ih =>
    simp only [deepest, depth]
    omega
  | case2 items => exact Nat.le_succ _

theorem depth_joinAll_le (head : Accum α) (items : List (Accum α)) :
    (joinAll head items).depth ≤ Nat.clog 2 (items.length + 1) + deepest (head :: items) := by
  fun_induction joinAll head items with
  | case1 head => simp [deepest]
  | case2 head second rest ih =>
    -- The head counts as an item: it is joined in each round, even where the others leave one over.
    have hRounds : Nat.clog 2 ((second :: rest).length + 1) =
        Nat.clog 2 ((pairUp rest).length + 1) + 1 := by
      rw [Nat.clog_of_two_le Nat.one_lt_two (by simp), List.length_cons, length_pairUp]
      congr 2
      omega
    have hDeeper := deepest_pairUp_le rest
    rw [hRounds]
    simp only [deepest, depth] at ih ⊢
    omega

theorem length_le_two_pow_depth (t : Accum α) : t.length ≤ 2 ^ t.depth := by
  induction t with
  | single a => exact Nat.le_refl 1
  | join l r ihLeft ihRight =>
    have hLeft := Nat.pow_le_pow_right Nat.two_pos (Nat.le_max_left l.depth r.depth)
    have hRight := Nat.pow_le_pow_right Nat.two_pos (Nat.le_max_right l.depth r.depth)
    rw [length, depth, Nat.pow_succ]
    omega

/-- However values are joined, their number bounds the depth from below. -/
theorem clog_length_le_depth (t : Accum α) : Nat.clog 2 t.length ≤ t.depth :=
  Nat.clog_le_of_le_pow t.length_le_two_pow_depth

theorem toList_joinAll_singles (a : α) (as : List α) :
    (joinAll (single a) (as.map single)).toList = a :: as := by
  have hSingles : (as.map single).flatMap toList = as := by
    rw [List.flatMap_map]
    exact List.flatMap_singleton' as
  rw [toList_joinAll, hSingles]
  rfl

theorem deepest_singles (as : List α) : deepest (as.map single) = 0 := by
  induction as with
  | nil => rfl
  | cons a rest ih => rw [List.map_cons, deepest, ih, depth, Nat.max_self]

theorem depth_joinAll_singles (a : α) (as : List α) :
    (joinAll (single a) (as.map single)).depth = Nat.clog 2 (as.length + 1) := by
  have hLength : (joinAll (single a) (as.map single)).length = as.length + 1 := by
    rw [← length_toList, toList_joinAll_singles, List.length_cons]
  have hLower := clog_length_le_depth (joinAll (single a) (as.map single))
  have hUpper := depth_joinAll_le (single a) (as.map single)
  rw [← List.map_cons, deepest_singles, List.length_map] at hUpper
  rw [hLength] at hLower
  exact Nat.le_antisymm hUpper hLower

end Accum

/-! ## Arrays -/

namespace Check
open Decoded

/-- What an array is decoded to once each element has a result. -/
def gather (results : List (Decoded Value)) : Decoded Value :=
  (Checked.collect (results.zipIdx.map fun r => within (.index r.2 .optional) r.1)).map .arr

/-- The results that are failures, with their positions. -/
def rejected (results : List (Decoded Value)) : List (Nat × Failures String) :=
  results.zipIdx.filterMap fun r => (Checked.failures? r.1).map fun e => (r.2, e)

section
variable {m : Type → Type} [Monad m] [LawfulMonad m]

theorem mapM_zipIdx {τ α β : Type} (f : τ → m α) (g : Nat → α → β) (items : List τ) (start : Nat) :
    ((items.zipIdx start).mapM fun item => g item.2 <$> f item.1) =
      (fun results => (results.zipIdx start).map fun r => g r.2 r.1) <$> items.mapM f := by
  induction items generalizing start with
  | nil => simp
  | cons x rest ih =>
    rw [List.zipIdx_cons, List.mapM_cons, List.mapM_cons, ih]
    simp only [List.zipIdx_cons, map_eq_pure_bind, bind_assoc, pure_bind, List.map_cons]

theorem array_eq_gather (item : Check m) (inputs : List Value) :
    array item (.arr inputs) = gather <$> inputs.mapM item := by
  have hEach := mapM_zipIdx item (fun i => within (.index i .optional)) inputs 0
  simp only [map_eq_pure_bind] at hEach
  simp only [array, Checked.traverseIndexed, hEach, map_eq_pure_bind, bind_assoc, pure_bind]
  rfl

end

theorem length_rejected (results : List (Decoded Value)) :
    (rejected results).length = (results.filterMap Checked.failures?).length := by
  have hForgotten : (rejected results).map Prod.snd =
      (results.zipIdx.map Prod.fst).filterMap Checked.failures? := by
    rw [rejected, List.map_filterMap, List.filterMap_map]
    congr 1
    funext r
    rw [Option.map_map]
    exact Option.map_id'
  rw [List.zipIdx_map_fst] at hForgotten
  rw [← hForgotten, List.length_map]

theorem pairwise_rejected (results : List (Decoded Value)) :
    ((rejected results).map Prod.fst).Pairwise (· < ·) := by
  have hPositions : (results.zipIdx.map Prod.snd).Pairwise (· < ·) := by
    rw [List.zipIdx_map_snd]
    exact List.pairwise_lt_range'
  rw [List.pairwise_map] at hPositions ⊢
  refine hPositions.filterMap _ ?_
  intro r r' hLt p hp p' hp'
  obtain ⟨e, _, rfl⟩ := Option.map_eq_some_iff.mp hp
  obtain ⟨e', _, rfl⟩ := Option.map_eq_some_iff.mp hp'
  exact hLt

theorem getElem?_of_mem_rejected {results : List (Decoded Value)} {p : Nat × Failures String}
    (h : p ∈ rejected results) : results[p.1]? = some (.error p.2) := by
  obtain ⟨r, hr, hp⟩ := List.mem_filterMap.mp h
  obtain ⟨e, he, rfl⟩ := Option.map_eq_some_iff.mp hp
  obtain ⟨result, i⟩ := r
  cases result with
  | ok w => cases he
  | error e' =>
    cases he
    exact List.mem_zipIdx_iff_getElem?.mp hr

/-- The failure of an element at its position. -/
def located (p : Nat × Failures String) : Failure String := .index p.1 .optional p.2

theorem filterMap_failures_located (results : List (Decoded Value)) :
    (results.zipIdx.map fun r => within (.index r.2 .optional) r.1).filterMap Checked.failures? =
      ((rejected results).map located).map .single := by
  rw [rejected, List.filterMap_map, List.map_filterMap, List.map_filterMap]
  congr 1
  funext r
  obtain ⟨result, i⟩ := r
  cases result <;> rfl

theorem gather_of_rejected {results : List (Decoded Value)} {p : Nat × Failures String}
    {rest : List (Nat × Failures String)} (h : rejected results = p :: rest) :
    gather results = .error (.joinAll (.single (located p)) ((rest.map located).map .single)) := by
  rw [gather, Checked.collect, filterMap_failures_located, h]
  rfl

end Check

/-- Joining in rounds ends after as many rounds as the binary logarithm of the number of items, rounded up;
it keeps every value in its place, and is no deeper than the rounds and the deepest item make it, which for
single values is as shallow as can be. So an array with rejected elements fails with one failure for each
of them, in the order of their positions, joined that way. -/
theorem joinAll_ordered_and_balanced :
    (∀ {α : Type} (first : Accum α) (rest : List (Accum α)),
      (∀ rounds, (Accum.round^[rounds] (first, rest)).2 = [] ↔ Nat.clog 2 (rest.length + 1) ≤ rounds) ∧
      Accum.round^[Nat.clog 2 (rest.length + 1)] (first, rest) = (Accum.joinAll first rest, []) ∧
      (Accum.joinAll first rest).toList = first.toList ++ rest.flatMap Accum.toList ∧
      (Accum.joinAll first rest).depth ≤
        Nat.clog 2 (rest.length + 1) + Accum.deepest (first :: rest)) ∧
    (∀ {α : Type} (a : α) (as : List α),
      (Accum.joinAll (.single a) (as.map .single)).depth = Nat.clog 2 (as.length + 1)) ∧
    (∀ {m : Type → Type} [Monad m] [LawfulMonad m] (item : Check m) (inputs : List Value),
      Check.array item (.arr inputs) = Check.gather <$> inputs.mapM item) ∧
    ∀ (results : List (Decoded Value)) (k : Nat), (results.filterMap Checked.failures?).length = k →
      1 ≤ k → ∃ (failures : Failures String) (positions : List Nat),
        Check.gather results = .error failures ∧ failures.toList.length = k ∧
          failures.depth = Nat.clog 2 k ∧ positions.Pairwise (· < ·) ∧
          List.Forall₂ (fun i f => ∃ e, results[i]? = some (.error e) ∧ f = .index i .optional e)
            positions failures.toList := by
  refine ⟨?_, Accum.depth_joinAll_singles, Check.array_eq_gather, ?_⟩
  · intro α first rest
    have hDone := (Accum.iterate_round_done_iff first rest _).mpr (Nat.le_refl _)
    have hJoined := Accum.joinAll_iterate_round (first, rest) (Nat.clog 2 (rest.length + 1))
    rw [hDone, Accum.joinAll] at hJoined
    exact ⟨Accum.iterate_round_done_iff first rest, Prod.ext hJoined hDone,
      Accum.toList_joinAll first rest, Accum.depth_joinAll_le first rest⟩
  · intro results k hCount hPos
    rw [← Check.length_rejected] at hCount
    cases hRejected : Check.rejected results with
    | nil =>
      rw [hRejected] at hCount
      exact absurd hPos (by simp [← hCount])
    | cons p rest =>
      have hList : (Accum.joinAll (.single (Check.located p)) ((rest.map Check.located).map .single)).toList =
          (Check.rejected results).map Check.located := by
        rw [Accum.toList_joinAll_singles, hRejected, List.map_cons]
      refine ⟨_, (Check.rejected results).map Prod.fst, Check.gather_of_rejected hRejected, ?_, ?_,
        Check.pairwise_rejected results, ?_⟩
      · rw [hList, List.length_map, hCount]
      · rw [Accum.depth_joinAll_singles, List.length_map, ← hCount, hRejected, List.length_cons]
      · rw [hList, List.forall₂_map_left_iff, List.forall₂_map_right_iff, List.forall₂_same]
        intro p hp
        exact ⟨p.2, Check.getElem?_of_mem_rejected hp, rfl⟩

namespace Baskets

def fruits : List Value := [.str "apple", .null, .num (.int 3), .str "pear", .bool false]

/-- Only names of fruits are kept. -/
def results : List (Decoded Value) := Id.run (fruits.mapM (Check.kind .string))

theorem fruits_rejected :
    (results.filterMap Checked.failures?).length = 3 ∧ 1 ≤ 3 ∧
      Check.array (m := Id) (Check.kind .string) (.arr fruits) = Check.gather results ∧
      ∃ (failures : Failures String) (positions : List Nat),
        Check.gather results = .error failures ∧ failures.toList.length = 3 ∧
          failures.depth = Nat.clog 2 3 ∧ positions.Pairwise (· < ·) ∧
          List.Forall₂ (fun i f => ∃ e, results[i]? = some (.error e) ∧ f = .index i .optional e)
            positions failures.toList := by
  have hCount : (results.filterMap Checked.failures?).length = 3 := rfl
  obtain ⟨_, _, hArray, hGather⟩ := joinAll_ordered_and_balanced
  exact ⟨hCount, by decide, hArray (m := Id) (Check.kind .string) fruits,
    hGather results 3 hCount (by decide)⟩

end Baskets

end JsonShapes
