import JsonShapes.Proofs.Promises
import JsonShapes.Proofs.Reports.Rejections
import JsonShapes.Proofs.WellKeyed

/-! # Walking along paths

A path can be walked from a value, step by step. Every check combinator reports rejections whose paths
lead from its input to the very values that were rejected, as soon as its parts do, in whatever monad
the parts run. Objects must not name an entry twice, as they do not once they are read.
-/
namespace JsonShapes
set_option autoImplicit false

/-- Where a step leads from a value, null standing for what is missing. Branches and named definitions
stay where they are; there is no way into a value of another kind. -/
def Step.enter : Step → Value → Option Value
  | .key name _, .obj entries => some ((Entries.get? entries name).getD .null)
  | .index position _, .arr items => some (items[position]?.getD .null)
  | .member _, v | .lazy _, v => some v
  | _, _ => none

/-- What an optional step goes to is there. -/
def Step.Grounded : Step → Value → Prop
  | .key name .optional, v => ∃ w, v.get? name = some w ∧ w ≠ .null
  | .index position .optional, v => position < v.items.length
  | _, _ => True

theorem Step.enter_element {items : List Value} {item : Value × Nat} (hItem : item ∈ items.zipIdx)
    (presence : Presence) :
    (Step.index item.2 presence).enter (.arr items) = some item.1 ∧
      (Step.index item.2 presence).Grounded (.arr items) := by
  have hAt : items[item.2]? = some item.1 := List.mem_zipIdx_iff_getElem?.mp hItem
  constructor
  · rw [Step.enter, hAt]
    rfl
  · cases presence with
    | required => trivial
    | optional => exact (List.getElem?_eq_some_iff.mp hAt).1

namespace Path

def walk : Path → Value → Option Value
  | [], v => some v
  | step :: rest, v => (step.enter v).bind (walk rest)

/-- Every step is grounded in the value that the steps before it lead to. -/
def Grounded : Path → Value → Prop
  | [], _ => True
  | step :: rest, v => step.Grounded v ∧ ∀ w, step.enter v = some w → Grounded rest w

end Path

structure Rejection.PointsInto {ε : Type} (v : Value) (r : Rejection ε) : Prop where
  walk_eq : r.path.walk v = some r.actual
  grounded : r.path.Grounded v

namespace Rejection.PointsInto
variable {ε : Type} {v w : Value}

theorem here (v : Value) (expected : ε) (notes : List ε) :
    PointsInto v ⟨[], v, expected, notes⟩ := ⟨rfl, trivial⟩

theorem under {r : Rejection ε} (h : r.PointsInto w) {step : Step} (hEnter : step.enter v = some w)
    (hGround : step.Grounded v) : (r.under step).PointsInto v := by
  constructor
  · have hWalk : (r.under step).path.walk v = (step.enter v).bind r.path.walk := rfl
    rw [hWalk, hEnter]
    exact h.walk_eq
  · refine ⟨hGround, ?_⟩
    intro w' hEnter'
    cases hEnter.symm.trans hEnter'
    exact h.grounded

end Rejection.PointsInto

/-! ## Results -/

def Decoded.Accurate {α : Type} (v : Value) (result : Decoded α) : Prop :=
  ∀ r ∈ result.rejections, r.PointsInto v

namespace Decoded.Accurate
variable {α β : Type} {v w : Value}

theorem ok (v : Value) (a : α) : Decoded.Accurate v (.ok a : Decoded α) := Every.ok a

theorem reject (v : Value) (expected : String) :
    Decoded.Accurate v (Decoded.reject v expected : Decoded α) := Every.reject (.here v expected [])

theorem map {result : Decoded α} (h : result.Accurate v) (f : α → β) :
    Decoded.Accurate v (result.map f) := Every.map h f

theorem within {result : Decoded α} (h : result.Accurate w) (step : Step)
    (hEnter : step.enter v = some w) (hGround : step.Grounded v) :
    (Decoded.within (.under step) result).Accurate v :=
  Every.within h fun _ hr => hr.under hEnter hGround

theorem member {e : Failures String} (h : Decoded.Accurate v (.error e : Decoded α)) (branch : Nat) :
    Decoded.Accurate v (.error (.single (.member branch e)) : Decoded α) :=
  within h (.member branch) rfl trivial

theorem both {left : Decoded α} {right : Decoded β} (hLeft : left.Accurate v)
    (hRight : right.Accurate v) : Decoded.Accurate v (Checked.both left right) := Every.both hLeft hRight

theorem neither {e : Failures String} (h : Decoded.Accurate v (.error e : Decoded α)) (expected : String) :
    Decoded.Accurate v (.error (.join (.single (.member 0 (.single (.leaf v expected))))
      (.single (.member 1 e))) : Decoded α) :=
  ((reject v expected : Decoded.Accurate v (Decoded.reject v expected : Decoded α)).member 0).both
    (h.member 1)

theorem property (entries : Entries Value) (name expected : String) :
    Decoded.Accurate (.obj entries) (.error (.single (.key name .required
      (.single (.leaf ((entries.get? name).getD .null) expected)))) : Decoded α) :=
  (reject ((entries.get? name).getD .null) expected).within (.key name .required) rfl trivial

theorem extras (arity : Nat) (items : List Value) :
    (Check.extras arity items).Accurate (.arr items) := by
  apply Every.collect
  intro result hResult
  obtain ⟨item, hItem, rfl⟩ := List.mem_map.mp hResult
  obtain ⟨hLe, hAt⟩ := List.mem_zipIdx_iff_le_and_getElem?_sub.mp hItem
  rw [List.getElem?_drop, Nat.add_sub_cancel' hLe] at hAt
  have hMem := List.mem_zipIdx_iff_getElem?.mpr hAt
  obtain ⟨hEnter, hGround⟩ := Step.enter_element hMem .optional
  exact (reject item.1 "never").within (.index item.2 .optional) hEnter hGround

end Decoded.Accurate

/-! ## Checks -/

namespace Promises
variable {m : Type → Type} [Monad m] (E : Promises m) {α τ : Type} {v : Value}

/-- Whatever the check reports of a value points into this value. -/
def Accurate (check : Check m) : Prop :=
  ∀ v, v.WellKeyed → E.Holds (check v) (Decoded.Accurate v)

namespace Accurate
variable {E} {check left right : Check m} {w : Value}

theorem located (h : E.Accurate check) (step : Step) (hw : w.WellKeyed) (hEnter : step.enter v = some w)
    (hGround : step.Grounded v) :
    E.Holds (do return Decoded.within (.under step) (← check w)) (Decoded.Accurate v) := by
  apply E.bind (h w hw)
  intro result hResult
  exact E.pure (hResult.within step hEnter hGround)

theorem guarded {test : Test m} (hTest : ∀ v, E.Holds (test v) fun _ => True) (expected : String) :
    E.Accurate (Check.guarded test expected) := by
  intro v _
  apply E.bind (hTest v)
  intro passed _
  cases passed with
  | true => exact E.pure (.ok v _)
  | false => exact E.pure (.reject v _)

theorem literal (values : List Value) : E.Accurate (Check.literal values) := by
  intro v _
  apply E.pure
  split
  · exact .ok v _
  · exact .reject v _

theorem lazy (id : String) (h : E.Accurate check) : E.Accurate (Check.lazy id check) := by
  intro v hv
  exact h.located (.lazy id) hv rfl trivial

theorem nullable (h : E.Accurate check) : E.Accurate (Check.nullable check) := by
  intro v hv
  cases v with
  | null => exact E.pure (.ok _ _)
  | _ =>
    apply E.bind (h _ hv)
    intro result hResult
    cases result with
    | ok w => exact E.pure (.ok _ _)
    | error e => exact E.pure (hResult.neither "null")

theorem object {props : List (String × Check m)} (h : ∀ p ∈ props, E.Accurate p.2) :
    E.Accurate (Check.object props) := by
  intro v hv
  cases v with
  | obj entries =>
    have hProperty : ∀ p ∈ props, E.Holds (do
        let result ← p.2 ((Entries.get? entries p.1).getD .null)
        return Decoded.within (.key p.1 .required) result) (Decoded.Accurate (.obj entries)) := by
      intro p hp
      exact (h p hp).located (.key p.1 .required) (hv.property p.1) rfl trivial
    apply E.bind (E.traverseKeyed hProperty)
    intro fields hFields
    exact E.pure (hFields.map _)
  | _ => exact E.pure (.reject _ _)

theorem partialObject {props : List (String × Check m)} (h : ∀ p ∈ props, E.Accurate p.2) :
    E.Accurate (Check.partialObject props) := by
  intro v hv
  cases v with
  | obj entries =>
    refine E.bind (E.traverseKeyed ?_) fun fields hFields => E.pure (hFields.map _)
    intro slot hSlot
    obtain ⟨p, hp, hSlot⟩ := List.mem_filterMap.mp hSlot
    obtain ⟨raw, hRaw, rfl⟩ := Option.map_eq_some_iff.mp hSlot
    have hProperty := hv.property p.1
    have hEnter : (Step.key p.1 .optional).enter (.obj entries) =
        some ((Entries.get? entries p.1).getD .null) := rfl
    rw [hRaw] at hProperty hEnter
    cases raw with
    | null => exact E.pure (Decoded.Accurate.ok _ _)
    | _ =>
      refine (h p hp).located (.key p.1 .optional) hProperty hEnter ⟨_, hRaw, ?_⟩
      intro hNull
      cases hNull
  | _ => exact E.pure (.reject _ _)

theorem record (h : E.Accurate check) : E.Accurate (Check.record check) := by
  intro v hv
  cases v with
  | obj entries =>
    refine E.bind (E.traverseKeyed ?_) fun fields hFields => E.pure (hFields.map _)
    intro e he
    have hEnter : (Step.key e.1 .required).enter (.obj entries) = some e.2 := by
      rw [Step.enter, hv.get?_eq he]
      rfl
    exact h.located (.key e.1 .required) (hv.2.mem e he) hEnter trivial
  | _ => exact E.pure (.reject _ _)

theorem array (h : E.Accurate check) : E.Accurate (Check.array check) := by
  intro v hv
  cases v with
  | arr items =>
    refine E.bind (E.traverseIndexed ?_) fun values hValues => E.pure (hValues.map _)
    intro item hItem
    obtain ⟨hEnter, hGround⟩ := Step.enter_element hItem .optional
    have hElement := Value.WellKeyedItems.mem hv item.1 (List.fst_mem_of_mem_zipIdx hItem)
    exact h.located (.index item.2 .optional) hElement hEnter hGround
  | _ => exact E.pure (.reject _ _)

theorem tuple {slots : List (Check m)} (h : ∀ slot ∈ slots, E.Accurate slot) :
    E.Accurate (Check.tuple slots) := by
  intro v hv
  cases v with
  | arr items =>
    have hSlots : E.Holds (Checked.traverseIndexed slots fun i check => do
        let result ← check (items[i]?.getD .null)
        return Decoded.within (.index i .required) result) (Decoded.Accurate (.arr items)) := by
      apply E.traverseIndexed
      intro slot hSlot
      have hAccurate := h slot.1 (List.fst_mem_of_mem_zipIdx hSlot)
      exact hAccurate.located (.index slot.2 .required) (hv.element slot.2) rfl trivial
    apply E.bind hSlots
    intro values hValues
    exact E.pure ((hValues.both (.extras slots.length items)).map _)
  | _ => exact E.pure (.reject _ _)

theorem firstOf {members : List (Check m)} (h : ∀ member ∈ members, E.Accurate member)
    (hv : v.WellKeyed) (start : Nat) :
    E.Holds (Check.firstOf v start members) fun result => ∀ es, result = .error es →
      ∀ e ∈ es, Decoded.Accurate v (.error e : Decoded Value) := by
  induction members generalizing start with
  | nil =>
    apply E.pure
    intro es hes
    cases hes
    exact List.forall_mem_nil _
  | cons member rest ih =>
    obtain ⟨hHead, hRest⟩ := List.forall_mem_cons.mp h
    apply E.bind (hHead v hv)
    intro result hResult
    cases result with
    | ok w =>
      apply E.pure
      intro es hes
      cases hes
    | error e =>
      apply E.bind (ih hRest (start + 1))
      intro others hOthers
      cases others with
      | ok w =>
        apply E.pure
        intro es hes
        cases hes
      | error es =>
        apply E.pure
        intro es' hes
        cases hes
        exact List.forall_mem_cons.mpr ⟨hResult.member start, hOthers es rfl⟩

theorem union {members : List (Check m)} (h : ∀ member ∈ members, E.Accurate member) :
    E.Accurate (Check.union members) := by
  intro v hv
  apply E.bind (firstOf h hv 0)
  intro result hResult
  match result with
  | .ok w => exact E.pure (.ok v w)
  | .error [] => exact E.pure (.reject v "never")
  | .error (e :: es) => exact E.pure (Decoded.Every.joinAll (hResult (e :: es) rfl))

theorem inter (hLeft : E.Accurate left) (hRight : E.Accurate right) :
    E.Accurate (Check.inter left right) := by
  intro v hv
  apply E.bind (hLeft v hv)
  intro inLeft hInLeft
  apply E.bind (hRight v hv)
  intro inRight hInRight
  exact E.pure ((hInLeft.both hInRight).map _)

theorem tagged (tag : String) {members : List (String × Check m)} (h : ∀ p ∈ members, E.Accurate p.2) :
    E.Accurate (Check.tagged tag members) := by
  intro v hv
  cases v with
  | obj entries =>
    simp only [Check.tagged]
    split
    · rename_i member hMember
      obtain ⟨name, hMem⟩ := Entries.mem_of_chosen hMember
      exact h _ hMem (.obj entries) hv
    · exact E.pure (.property entries tag _)
  | _ => exact E.pure (.reject _ _)

end Accurate

end Promises

end JsonShapes
