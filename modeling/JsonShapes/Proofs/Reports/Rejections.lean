import JsonShapes.Decoder.Check
import JsonShapes.Failure.Path
import JsonShapes.Proofs.Accumulations.Values
import JsonShapes.Proofs.Promises

/-! # Flattened failures

Joining failures in rounds and flattening them with a growing path gives the same list as writing down
the rejections of every part one after the other and putting the steps in front afterwards. Nothing is
lost, repeated or moved when failures are collected.
-/
namespace JsonShapes
set_option autoImplicit false

variable {ε α β : Type}

def Failure.under : Step → Failures ε → Failure ε
  | .key name presence, e => .key name presence e
  | .index position presence, e => .index position presence e
  | .member branch, e => .member branch e
  | .lazy id, e => .lazy id e

namespace Rejection

def under (step : Step) (r : Rejection ε) : Rejection ε := { r with path := step :: r.path }

/-- Puts a path and notes in front. -/
def relocate (path : Path) (notes : List ε) (r : Rejection ε) : Rejection ε :=
  { r with path := path ++ r.path, notes := notes ++ r.notes }

theorem relocate_relocate (path path' : Path) (notes notes' : List ε) :
    relocate path notes ∘ relocate path' notes' = relocate (path ++ path') (notes ++ notes') := by
  funext r
  simp [relocate]

end Rejection

mutual

theorem Failure.rejectionsAt_eq_map (f : Failure ε) (path : Path) (notes : List ε) :
    f.rejectionsAt path notes = (f.rejectionsAt [] []).map (Rejection.relocate path notes) := by
  cases f with
  | leaf actual expected => simp [Failure.rejectionsAt, Rejection.relocate]
  | note message within =>
    simp only [Failure.rejectionsAt, List.nil_append]
    rw [Failures.rejectionsAt_eq_map within path (notes ++ [message]),
      Failures.rejectionsAt_eq_map within [] [message], List.map_map, Rejection.relocate_relocate,
      List.append_nil]
  | _ name =>
    simp only [Failure.rejectionsAt]
    rw [Failures.rejectionsAt_eq_map _ (path.push _), Failures.rejectionsAt_eq_map _ (Path.push [] _),
      List.map_map, Rejection.relocate_relocate, List.append_nil]
    rfl

theorem Failures.rejectionsAt_eq_map (e : Failures ε) (path : Path) (notes : List ε) :
    Failures.rejectionsAt path notes e =
      (Failures.rejectionsAt [] [] e).map (Rejection.relocate path notes) := by
  cases e with
  | single f => exact Failure.rejectionsAt_eq_map f path notes
  | join l r =>
    simp only [Failures.rejectionsAt, List.map_append]
    rw [Failures.rejectionsAt_eq_map l path, Failures.rejectionsAt_eq_map r path]

end

namespace Failures

theorem rejections_join (l r : Failures ε) : rejections (.join l r) = l.rejections ++ r.rejections := by
  simp only [rejections, rejectionsAt]

theorem rejections_joinAll (e : Failures ε) (es : List (Failures ε)) :
    rejections (.joinAll e es) = e.rejections ++ es.flatMap rejections := by
  have hEach : rejections = fun e : Failures ε => e.toList.flatMap (Failure.rejectionsAt [] []) := by
    funext e
    exact e.rejectionsAt_eq_flatMap [] []
  simp only [hEach]
  rw [Accum.toList_joinAll, List.flatMap_append, List.flatMap_assoc]

theorem rejections_under (step : Step) (e : Failures ε) :
    rejections (.single (.under step e)) = e.rejections.map (Rejection.under step) := by
  have hLocated : rejections (.single (.under step e)) = e.rejectionsAt [step] [] := by
    cases step <;> rfl
  rw [hLocated, e.rejectionsAt_eq_map [step] []]
  rfl

end Failures

mutual

theorem Failure.rejectionsAt_ne_nil (f : Failure ε) (path : Path) (notes : List ε) :
    f.rejectionsAt path notes ≠ [] := by
  cases f with
  | leaf actual expected => exact List.cons_ne_nil _ []
  | _ => exact Failures.rejectionsAt_ne_nil _ _ _

theorem Failures.rejectionsAt_ne_nil (e : Failures ε) (path : Path) (notes : List ε) :
    e.rejectionsAt path notes ≠ [] := by
  cases e with
  | single f => exact Failure.rejectionsAt_ne_nil f path notes
  | join l r =>
    simp only [Failures.rejectionsAt]
    exact List.append_ne_nil_of_left_ne_nil (Failures.rejectionsAt_ne_nil l path notes) _

end

/-! ## Results -/

namespace Decoded

def rejections : Decoded α → List (Rejection String)
  | .ok _ => []
  | .error e => Failures.rejections e

@[simp] theorem rejections_map (f : α → β) (r : Decoded α) :
    rejections (r.map f) = rejections r := by cases r <;> rfl

theorem rejections_within (step : Step) (r : Decoded α) :
    rejections (within (.under step) r) = (rejections r).map (Rejection.under step) := by
  cases r with
  | ok a => rfl
  | error e => exact Failures.rejections_under step e

@[simp] theorem rejections_both (r : Decoded α) (r' : Decoded β) :
    rejections (Checked.both r r') = rejections r ++ rejections r' := by
  cases r with
  | ok a => cases r' <;> rfl
  | error e =>
    cases r' with
    | ok b => exact (List.append_nil _).symm
    | error e' => exact Failures.rejections_join e e'

@[simp] theorem rejections_collect (rs : List (Decoded α)) :
    rejections (Checked.collect rs) = rs.flatMap rejections := by
  have hFailures : rs.flatMap rejections = (rs.filterMap Checked.failures?).flatMap Failures.rejections := by
    induction rs with
    | nil => rfl
    | cons r rest ih =>
      rw [List.flatMap_cons, ih, List.filterMap_cons]
      cases r <;> rfl
  rw [hFailures]
  unfold Checked.collect
  cases rs.filterMap Checked.failures? with
  | nil => rfl
  | cons e es => exact Failures.rejections_joinAll e es

/-- Everything that is rejected has the property. -/
def Every (Q : Rejection String → Prop) (result : Decoded α) : Prop := ∀ r ∈ result.rejections, Q r

namespace Every
variable {Q Q' : Rejection String → Prop}

theorem ok (a : α) : Every Q (.ok a : Decoded α) := List.forall_mem_nil _

theorem reject {v : Value} {expected : String} (h : Q ⟨[], v, expected, []⟩) :
    Every Q (Decoded.reject v expected : Decoded α) := List.forall_mem_singleton.mpr h

theorem map {result : Decoded α} (h : result.Every Q) (f : α → β) : Every Q (result.map f) := by
  rw [Every, rejections_map]
  exact h

theorem within {result : Decoded α} (h : result.Every Q) {step : Step} (hStep : ∀ r, Q r → Q' (r.under step)) :
    Every Q' (Decoded.within (.under step) result) := by
  intro r hr
  rw [rejections_within] at hr
  obtain ⟨r', hr', rfl⟩ := List.mem_map.mp hr
  exact hStep r' (h r' hr')

theorem both {left : Decoded α} {right : Decoded β} (hLeft : left.Every Q) (hRight : right.Every Q) :
    Every Q (Checked.both left right) := by
  rw [Every, rejections_both]
  exact List.forall_mem_append.mpr ⟨hLeft, hRight⟩

theorem collect {results : List (Decoded α)} (h : ∀ result ∈ results, result.Every Q) :
    Every Q (Checked.collect results) := by
  intro r hr
  rw [rejections_collect] at hr
  obtain ⟨result, hResult, hr⟩ := List.mem_flatMap.mp hr
  exact h result hResult r hr

theorem joinAll {e : Failures String} {es : List (Failures String)}
    (h : ∀ e' ∈ e :: es, Every Q (.error e' : Decoded α)) : Every Q (.error (.joinAll e es) : Decoded α) := by
  obtain ⟨hHead, hRest⟩ := List.forall_mem_cons.mp h
  change ∀ r ∈ Failures.rejections (.joinAll e es), Q r
  rw [Failures.rejections_joinAll]
  refine List.forall_mem_append.mpr ⟨hHead, fun r hr => ?_⟩
  obtain ⟨e', he', hr⟩ := List.mem_flatMap.mp hr
  exact hRest e' he' r hr

end Every

end Decoded

namespace Promises
variable {m : Type → Type} [Monad m] (E : Promises m) {τ : Type} {Q : Rejection String → Prop}

theorem traverseIndexed {items : List τ} {f : Nat → τ → m (Decoded α)}
    (h : ∀ item ∈ items.zipIdx, E.Holds (f item.2 item.1) (Decoded.Every Q)) :
    E.Holds (Checked.traverseIndexed items f) (Decoded.Every Q) := by
  apply E.bind (E.mapM h)
  intro results hResults
  exact E.pure (Decoded.Every.collect hResults)

theorem traverseKeyed {entries : List (String × τ)} {f : String → τ → m (Decoded α)}
    (h : ∀ e ∈ entries, E.Holds (f e.1 e.2) (Decoded.Every Q)) :
    E.Holds (Checked.traverseKeyed entries f) (Decoded.Every Q) := by
  have hEach : ∀ e ∈ entries, E.Holds (do
      let result ← f e.1 e.2
      return result.map fun a => (e.1, a)) (Decoded.Every Q) := by
    intro e he
    apply E.bind (h e he)
    intro result hResult
    exact E.pure (hResult.map _)
  apply E.bind (E.mapM hEach)
  intro results hResults
  exact E.pure ((Decoded.Every.collect hResults).map _)

end Promises

end JsonShapes
