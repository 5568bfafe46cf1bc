import JsonShapes.Failure.Drawing
import JsonShapes.Proofs.Lists
import JsonShapes.Proofs.Reports.Rejections

/-! # Drawn failures and rejections

The nodes without children in the forest that is drawn are the rejections, one for one and in the same order.
Both stand at the end of the same trail of steps and notes: the labels above the node show all of the trail,
the path of the rejection is its steps, and the notes of the rejection are its notes.
-/
namespace JsonShapes
set_option autoImplicit false

/-! ## What is drawn -/

/-- A node without children under the labels of the nodes above it, outermost first. -/
structure Tip where
  above : List String
  label : String

def Tip.under (label : String) (tip : Tip) : Tip := { tip with above := label :: tip.above }

namespace Tree

mutual

/-- The nodes without children, in preorder. -/
def tips : Tree → List Tip
  | node label [] => [⟨[], label⟩]
  | node label (t :: rest) => (tipsEach (t :: rest)).map (Tip.under label)

def tipsEach : List Tree → List Tip
  | [] => []
  | t :: rest => t.tips ++ tipsEach rest

end

theorem tipsEach_append (ts ts' : List Tree) : tipsEach (ts ++ ts') = tipsEach ts ++ tipsEach ts' := by
  induction ts with
  | nil => rfl
  | cons t rest ih => rw [List.cons_append, tipsEach, tipsEach, ih, List.append_assoc]

end Tree

/-- How a step is shown. -/
def Step.label : Step → String
  | .key name presence => presence.text ++ " property " ++ Text.jsonQuoted name
  | .index position presence => presence.text ++ " index " ++ toString position
  | .member branch => "member " ++ toString branch
  | .lazy id => "lazy type " ++ id

variable {ε : Type}

/-! ## Trails -/

mutual

/-- The steps and notes that lead to each rejected value, outermost first. -/
def Failure.trails : Failure ε → List (List (Step ⊕ ε))
  | .leaf _ _ => [[]]
  | .key name presence within => (Failures.trails within).map (.inl (.key name presence) :: ·)
  | .index position presence within => (Failures.trails within).map (.inl (.index position presence) :: ·)
  | .member branch within => (Failures.trails within).map (.inl (.member branch) :: ·)
  | .lazy id within => (Failures.trails within).map (.inl (.lazy id) :: ·)
  | .note message within => (Failures.trails within).map (.inr message :: ·)

def Failures.trails : Failures ε → List (List (Step ⊕ ε))
  | .single f => f.trails
  | .join l r => Failures.trails l ++ Failures.trails r

end

def Rejection.note (message : ε) (r : Rejection ε) : Rejection ε := { r with notes := message :: r.notes }

theorem Failures.rejections_note (message : ε) (e : Failures ε) :
    rejections (.single (.note message e)) = e.rejections.map (Rejection.note message) := by
  have hNoted : rejections (.single (.note message e)) = e.rejectionsAt [] [message] := rfl
  rw [hNoted, e.rejectionsAt_eq_map [] [message]]
  rfl

variable [ToString ε]

/-- Nodes, rejections and trails that belong together, one after the other. -/
structure Matched (tips : List Tip) (rejections : List (Rejection ε)) (trails : List (List (Step ⊕ ε))) :
    Prop where
  label : tips.map Tip.label = rejections.map fun r =>
    "cannot decode " ++ r.actual.text ++ ", should be " ++ toString r.expected
  above : tips.map Tip.above = trails.map fun trail => trail.map (Sum.elim Step.label toString)
  path : rejections.map Rejection.path = trails.map fun trail => trail.filterMap Sum.getLeft?
  notes : rejections.map Rejection.notes = trails.map fun trail => trail.filterMap Sum.getRight?

namespace Matched
variable {tips tips' : List Tip} {rejections rejections' : List (Rejection ε)}
  {trails trails' : List (List (Step ⊕ ε))}

theorem append (h : Matched tips rejections trails) (h' : Matched tips' rejections' trails') :
    Matched (tips ++ tips') (rejections ++ rejections') (trails ++ trails') where
  label := by rw [List.map_append, List.map_append, h.label, h'.label]
  above := by rw [List.map_append, List.map_append, h.above, h'.above]
  path := by rw [List.map_append, List.map_append, h.path, h'.path]
  notes := by rw [List.map_append, List.map_append, h.notes, h'.notes]

theorem under (h : Matched tips rejections trails) (step : Step) :
    Matched (tips.map (Tip.under step.label)) (rejections.map (Rejection.under step))
      (trails.map (.inl step :: ·)) where
  label := map_map_eq_of_map_eq h.label id rfl rfl
  above := map_map_eq_of_map_eq h.above (step.label :: ·) rfl rfl
  path := map_map_eq_of_map_eq h.path (step :: ·) rfl rfl
  notes := map_map_eq_of_map_eq h.notes id rfl rfl

theorem note (h : Matched tips rejections trails) (message : ε) :
    Matched (tips.map (Tip.under (toString message))) (rejections.map (Rejection.note message))
      (trails.map (.inr message :: ·)) where
  label := map_map_eq_of_map_eq h.label id rfl rfl
  above := map_map_eq_of_map_eq h.above (toString message :: ·) rfl rfl
  path := map_map_eq_of_map_eq h.path id rfl rfl
  notes := map_map_eq_of_map_eq h.notes (message :: ·) rfl rfl

end Matched

theorem Failures.forest_ne_nil (e : Failures ε) : e.forest ≠ [] := by
  induction e with
  | single f =>
    rw [forest]
    exact List.cons_ne_nil _ _
  | join l r ihLeft ihRight =>
    rw [forest]
    exact List.append_ne_nil_of_left_ne_nil ihLeft _

/-- A node above failures has children, so it is not one of the tips itself. -/
theorem Failures.tips_node (label : String) (e : Failures ε) :
    (Tree.node label e.forest).tips = (Tree.tipsEach e.forest).map (Tip.under label) := by
  obtain ⟨t, rest, hForest⟩ := List.exists_cons_of_ne_nil e.forest_ne_nil
  rw [hForest, Tree.tips]

/-! ## Agreement -/

namespace Matched
variable {e : Failures ε}

theorem located (h : Matched (Tree.tipsEach e.forest) e.rejections e.trails) (step : Step) :
    Matched (Failure.under step e).tree.tips (Failures.rejections (.single (.under step e)))
      (Failure.under step e).trails := by
  have hTree : (Failure.under step e).tree = .node step.label e.forest := by cases step <;> rfl
  have hTrails : (Failure.under step e).trails = e.trails.map (.inl step :: ·) := by cases step <;> rfl
  rw [hTree, Failures.tips_node, Failures.rejections_under, hTrails]
  exact h.under step

theorem noted (h : Matched (Tree.tipsEach e.forest) e.rejections e.trails) (message : ε) :
    Matched (Failure.note message e).tree.tips (Failures.rejections (.single (.note message e)))
      (Failure.note message e).trails := by
  rw [Failure.tree, Failures.tips_node, Failures.rejections_note, Failure.trails]
  exact h.note message

end Matched

mutual

theorem Failure.matched (f : Failure ε) : Matched f.tree.tips (Failures.rejections (.single f)) f.trails := by
  cases f with
  | leaf actual expected => exact ⟨rfl, rfl, rfl, rfl⟩
  | note message within => exact (Failures.matched within).noted message
  | key name presence within => exact (Failures.matched within).located (.key name presence)
  | index position presence within => exact (Failures.matched within).located (.index position presence)
  | member branch within => exact (Failures.matched within).located (.member branch)
  | lazy id within => exact (Failures.matched within).located (.lazy id)

theorem Failures.matched (e : Failures ε) : Matched (Tree.tipsEach e.forest) e.rejections e.trails := by
  cases e with
  | single f =>
    rw [Failures.forest, Tree.tipsEach, Tree.tipsEach, List.append_nil]
    exact f.matched
  | join l r =>
    rw [Failures.forest, Tree.tipsEach_append, Failures.rejections_join, Failures.trails]
    exact (Failures.matched l).append (Failures.matched r)

end

/-- The nodes without children, the rejections and the trails come one for one and in the same order,
however steps and notes alternate. -/
theorem Failures.tips_agree_with_rejections (failures : Failures ε) :
    ((Tree.tipsEach failures.forest).map Tip.label = failures.rejections.map fun r =>
      "cannot decode " ++ r.actual.text ++ ", should be " ++ toString r.expected) ∧
    ((Tree.tipsEach failures.forest).map Tip.above =
      failures.trails.map fun trail => trail.map (Sum.elim Step.label toString)) ∧
    (failures.rejections.map Rejection.path = failures.trails.map fun trail => trail.filterMap Sum.getLeft?) ∧
    failures.rejections.map Rejection.notes = failures.trails.map fun trail => trail.filterMap Sum.getRight? :=
  have hMatched := failures.matched
  ⟨hMatched.label, hMatched.above, hMatched.path, hMatched.notes⟩

end JsonShapes
