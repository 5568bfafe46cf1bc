import JsonShapes.Checked
import Mathlib.Data.List.Forall2

/-! # Promises about results

A promise says what holds of every result that a computation gives. Returning and sequencing keep
promises, and the combinators are written with these two alone, so what is promised of a shape follows
from what is promised of its parts, in whatever monad it runs.
-/
namespace JsonShapes
set_option autoImplicit false

structure Promises (m : Type → Type) [Monad m] where
  Holds : {α : Type} → m α → (α → Prop) → Prop
  pure : ∀ {α : Type} {P : α → Prop} {a : α}, P a → Holds (Pure.pure a : m α) P
  bind : ∀ {α β : Type} {x : m α} {f : α → m β} {P : α → Prop} {Q : β → Prop},
    Holds x P → (∀ a, P a → Holds (f a) Q) → Holds (x >>= f) Q

namespace Promises
variable {m : Type → Type} [Monad m] (E : Promises m) {α β τ : Type}

/-- The loop may use what is promised of each item for what is promised of the list. -/
theorem mapM_each {xs : List τ} {f : τ → m α} {P : τ → α → Prop} {Q : List α → Prop}
    (h : ∀ x ∈ xs, E.Holds (f x) (P x)) (hQ : ∀ results, List.Forall₂ P xs results → Q results) :
    E.Holds (xs.mapM f) Q := by
  -- The loop carries the results so far in reverse.
  have hLoop : ∀ (rest before : List τ) (done : List α), before ++ rest = xs →
      List.Forall₂ P before done.reverse → E.Holds (List.mapM.loop f rest done) Q := by
    intro rest
    induction rest with
    | nil =>
      intro before done hAll hDone
      rw [List.append_nil] at hAll
      exact E.pure (hQ _ (hAll ▸ hDone))
    | cons x rest ih =>
      intro before done hAll hDone
      have hMem : x ∈ xs := hAll ▸ List.mem_append_right before List.mem_cons_self
      apply E.bind (h x hMem)
      intro a ha
      apply ih (before ++ [x])
      · rw [List.append_assoc, List.singleton_append, hAll]
      · rw [List.reverse_cons]
        exact List.rel_append hDone (.cons ha .nil)
  exact hLoop xs [] [] rfl .nil

theorem mapM {xs : List τ} {f : τ → m α} {P : α → Prop} (h : ∀ x ∈ xs, E.Holds (f x) P) :
    E.Holds (xs.mapM f) fun results => ∀ a ∈ results, P a := by
  apply E.mapM_each h
  intro results hResults
  clear h
  induction hResults with
  | nil => exact List.forall_mem_nil _
  | cons hHead _ ih => exact List.forall_mem_cons.mpr ⟨hHead, ih⟩

/-- Promises of what is returned without effects, if anything is. -/
def returned : Promises Option where
  Holds x P := ∀ a, x = some a → P a
  pure h _ ha := Option.some.inj ha ▸ h
  bind hx hf b hb := by
    obtain ⟨a, ha, hb⟩ := Option.bind_eq_some_iff.mp hb
    exact hf a (hx a ha) b hb

end Promises

end JsonShapes
