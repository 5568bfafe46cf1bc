import JsonShapes.Failure.Drawing
import JsonShapes.Proofs.Lists
import JsonShapes.Proofs.Reports.Rejections
import Mathlib.Logic.Relation

/-! # Failures grouped in another way

How failures were joined is not seen by anyone. Turning a join about its middle part, at any level,
changes neither the forest that is drawn nor the rejections, and leaves at every level the same
failures one after the other. The order of the failures at each level is in turn all that there is:
trees that agree in it are grouped into each other.
-/
namespace JsonShapes
set_option autoImplicit false
variable {ε : Type}

namespace Failures

/-- One join is turned about its middle part, at this level or within a failure. -/
inductive Regroups : Failures ε → Failures ε → Prop
  | toRight (a b c : Failures ε) : Regroups (.join (.join a b) c) (.join a (.join b c))
  | toLeft (a b c : Failures ε) : Regroups (.join a (.join b c)) (.join (.join a b) c)
  | inLeft {l l' : Failures ε} (r : Failures ε) : Regroups l l' → Regroups (.join l r) (.join l' r)
  | inRight (l : Failures ε) {r r' : Failures ε} : Regroups r r' → Regroups (.join l r) (.join l r')
  | under (step : Step) {e e' : Failures ε} :
    Regroups e e' → Regroups (.single (.under step e)) (.single (.under step e'))
  | note (message : ε) {e e' : Failures ε} :
    Regroups e e' → Regroups (.single (.note message e)) (.single (.note message e'))

/-- The same failures up to any number of turned joins. -/
def Regrouped : Failures ε → Failures ε → Prop := Relation.ReflTransGen Regroups

end Failures

/-- The same failure up to turned joins within. -/
def Failure.Regrouped (f f' : Failure ε) : Prop := Failures.Regrouped (.single f) (.single f')

namespace Failures

theorem Regroups.symm {e e' : Failures ε} (h : e.Regroups e') : e'.Regroups e := by
  induction h with
  | toRight a b c => exact .toLeft a b c
  | toLeft a b c => exact .toRight a b c
  | inLeft r _ ih => exact .inLeft r ih
  | inRight l _ ih => exact .inRight l ih
  | under step _ ih => exact .under step ih
  | note message _ ih => exact .note message ih

namespace Regrouped
variable {e e' e'' l l' r r' : Failures ε}

theorem refl (e : Failures ε) : e.Regrouped e := Relation.ReflTransGen.refl

theorem trans (h : e.Regrouped e') (h' : e'.Regrouped e'') : e.Regrouped e'' :=
  Relation.ReflTransGen.trans h h'

theorem symm (h : e.Regrouped e') : e'.Regrouped e := by
  induction h with
  | refl => exact refl e
  | tail _ hStep ih => exact Relation.ReflTransGen.head hStep.symm ih

theorem join (hLeft : l.Regrouped l') (hRight : r.Regrouped r') :
    Regrouped (.join l r) (.join l' r') := by
  have hFirst : Regrouped (.join l r) (.join l' r) :=
    Relation.ReflTransGen.lift (Accum.join · r) (fun _ _ => Regroups.inLeft r) _ _ hLeft
  have hSecond : Regrouped (.join l' r) (.join l' r') :=
    Relation.ReflTransGen.lift (Accum.join l') (fun _ _ => Regroups.inRight l') _ _ hRight
  exact hFirst.trans hSecond

end Regrouped

/-! ## One level -/

theorem forall₂_regrouped_self (fs : List (Failure ε)) : List.Forall₂ Failure.Regrouped fs fs :=
  List.forall₂_same.mpr fun f _ => Regrouped.refl (.single f)

theorem Regroups.toList {e e' : Failures ε} (h : e.Regroups e') :
    List.Forall₂ Failure.Regrouped e.toList e'.toList := by
  induction h with
  | toRight a b c | toLeft a b c =>
    simp only [Accum.toList_join, List.append_assoc]
    exact forall₂_regrouped_self _
  | inLeft r _ ih => exact List.rel_append ih (forall₂_regrouped_self r.toList)
  | inRight l _ ih => exact List.rel_append (forall₂_regrouped_self l.toList) ih
  | under step h _ => exact .cons (Relation.ReflTransGen.single (.under step h)) .nil
  | note message h _ => exact .cons (Relation.ReflTransGen.single (.note message h)) .nil

/-- Joined one by one from the right. -/
def chain (f : Failure ε) : List (Failure ε) → Failures ε
  | [] => .single f
  | g :: rest => .join (.single f) (chain g rest)

theorem chain_append (f g : Failure ε) (fs gs : List (Failure ε)) :
    Regrouped (.join (chain f fs) (chain g gs)) (chain f (fs ++ g :: gs)) := by
  induction fs generalizing f with
  | nil => exact .refl _
  | cons f' fs ih =>
    have hTurned := Relation.ReflTransGen.single (Regroups.toRight (.single f) (chain f' fs) (chain g gs))
    exact Regrouped.trans hTurned (.join (.refl _) (ih f'))

theorem regrouped_chain (e : Failures ε) :
    ∃ f fs, e.toList = f :: fs ∧ e.Regrouped (chain f fs) := by
  induction e with
  | single f => exact ⟨f, [], rfl, .refl _⟩
  | join l r ihLeft ihRight =>
    obtain ⟨f, fs, hLeft, hLeftChain⟩ := ihLeft
    obtain ⟨g, gs, hRight, hRightChain⟩ := ihRight
    refine ⟨f, fs ++ g :: gs, ?_, ?_⟩
    · rw [Accum.toList_join, hLeft, hRight, List.cons_append]
    · exact (Regrouped.join hLeftChain hRightChain).trans (chain_append f g fs gs)

theorem Regrouped.chain {f g : Failure ε} {fs gs : List (Failure ε)} (h : f.Regrouped g)
    (hs : List.Forall₂ Failure.Regrouped fs gs) : Regrouped (chain f fs) (chain g gs) := by
  induction hs generalizing f g with
  | nil => exact h
  | cons hHead _ ih => exact .join h (ih hHead)

/-- The failures of a level, one after the other, are all that is not grouping. -/
theorem regrouped_iff_toList {e e' : Failures ε} :
    e.Regrouped e' ↔ List.Forall₂ Failure.Regrouped e.toList e'.toList := by
  constructor
  · intro h
    induction h with
    | refl => exact forall₂_regrouped_self _
    | tail _ hStep ih =>
      have hTrans : ∀ f g k : Failure ε, f.Regrouped g → g.Regrouped k → f.Regrouped k :=
        fun _ _ _ => Regrouped.trans
      exact forall₂_trans hTrans ih hStep.toList
  · -- Both are turned until they are chains, which are then as long as each other.
    intro h
    obtain ⟨f, fs, hList, hChain⟩ := regrouped_chain e
    obtain ⟨g, gs, hList', hChain'⟩ := regrouped_chain e'
    rw [hList, hList'] at h
    cases h with
    | cons hHead hRest => exact hChain.trans ((Regrouped.chain hHead hRest).trans hChain'.symm)

theorem Regrouped.first {e e' : Failures ε} (h : e.Regrouped e') : e.first.Regrouped e'.first := by
  obtain ⟨fs, hList⟩ := List.head?_eq_some_iff.mp e.head?_toList
  obtain ⟨fs', hList'⟩ := List.head?_eq_some_iff.mp e'.head?_toList
  rw [regrouped_iff_toList, hList, hList'] at h
  cases h with
  | cons hHead _ => exact hHead

/-! ## What is seen -/

theorem Regroups.rejectionsAt {e e' : Failures ε} (h : e.Regroups e') (path : Path) (notes : List ε) :
    e.rejectionsAt path notes = e'.rejectionsAt path notes := by
  induction h generalizing path notes with
  | toRight a b c | toLeft a b c => simp only [Failures.rejectionsAt, List.append_assoc]
  | inLeft r _ ih => simp only [Failures.rejectionsAt, ih]
  | inRight l _ ih => simp only [Failures.rejectionsAt, ih]
  | under step _ ih => cases step <;> simp only [Failure.under, Failures.rejectionsAt, Failure.rejectionsAt, ih]
  | note message _ ih => simp only [Failures.rejectionsAt, Failure.rejectionsAt, ih]

theorem Regroups.forest [ToString ε] {e e' : Failures ε} (h : e.Regroups e') :
    e.forest = e'.forest := by
  induction h with
  | toRight a b c | toLeft a b c => simp only [Failures.forest, List.append_assoc]
  | inLeft r _ ih => simp only [Failures.forest, ih]
  | inRight l _ ih => simp only [Failures.forest, ih]
  | under step _ ih => cases step <;> simp only [Failure.under, Failures.forest, Failure.tree, ih]
  | note message _ ih => simp only [Failures.forest, Failure.tree, ih]

namespace Regrouped
variable {e e' : Failures ε}

theorem rejections (h : e.Regrouped e') : e.rejections = e'.rejections := by
  induction h with
  | refl => rfl
  | tail _ hStep ih => exact ih.trans (hStep.rejectionsAt Path.root [])

theorem forest [ToString ε] (h : e.Regrouped e') : e.forest = e'.forest := by
  induction h with
  | refl => rfl
  | tail _ hStep ih => exact ih.trans hStep.forest

end Regrouped

/-- Whoever draws failures, flattens them, counts them, takes the first of them or walks along them sees
the same, however they are grouped at any level. -/
theorem views_disregard_grouping [ToString ε] {e e' : Failures ε} (h : e.Regrouped e') :
    e.forest = e'.forest ∧ e.draw = e'.draw ∧ e.rejections = e'.rejections ∧ e.length = e'.length ∧
      e.first.Regrouped e'.first ∧ List.Forall₂ Failure.Regrouped e.cursor.drain e'.cursor.drain ∧
      ∀ n, List.Forall₂ Failure.Regrouped (e.cursor.take n) (e'.cursor.take n) := by
  have hLists := regrouped_iff_toList.mp h
  refine ⟨h.forest, ?_, h.rejections, ?_, h.first, ?_, ?_⟩
  · rw [draw, draw, h.forest]
  · rw [← Accum.length_toList, ← Accum.length_toList, hLists.length_eq]
  · rw [Accum.drain_cursor, Accum.drain_cursor]
    exact hLists
  · intro n
    rw [Accum.take_cursor, Accum.take_cursor]
    exact List.forall₂_take n hLists

end Failures

namespace Gusts

def missing (name : String) : Failures String :=
  .single (.key name .required (.single (.leaf .null "string")))

def trunk : Failures String := .single (.index 2 .optional (.single (.leaf (.bool true) "number")))

/-- Three failures that are joined from the left, with three more under a note in the last of them that are
joined from the right. -/
def leftward : Failures String :=
  .join (.join trunk (missing "bark"))
    (.single (.note "no leaf" (.single (.member 1 (.join (missing "stem") (.join (missing "vein") trunk))))))

def rightward : Failures String :=
  .join trunk (.join (missing "bark")
    (.single (.note "no leaf" (.single (.member 1 (.join (.join (missing "stem") (missing "vein")) trunk))))))

theorem leftward_regrouped : leftward.Regrouped rightward := by
  have hInner : Failures.Regroups (.join (missing "stem") (.join (missing "vein") trunk))
      (.join (.join (missing "stem") (missing "vein")) trunk) := .toLeft _ _ _
  have hNoted := Failures.Regroups.note "no leaf" (.under (.member 1) hInner)
  exact .tail (.single (.inRight _ hNoted)) (.toRight _ _ _)

theorem leftward_seen_as_rightward :
    leftward.forest = rightward.forest ∧ leftward.draw = rightward.draw ∧
      leftward.rejections = rightward.rejections ∧ leftward.length = rightward.length ∧
      leftward.first.Regrouped rightward.first ∧
      List.Forall₂ Failure.Regrouped leftward.cursor.drain rightward.cursor.drain ∧
      ∀ n, List.Forall₂ Failure.Regrouped (leftward.cursor.take n) (rightward.cursor.take n) :=
  Failures.views_disregard_grouping leftward_regrouped

end Gusts

end JsonShapes
