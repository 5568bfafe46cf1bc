import JsonShapes.Proofs.Limits
import JsonShapes.Proofs.Memoization.Interpreters
import JsonShapes.Proofs.Reports.Rejections
import JsonShapes.Proofs.Termination.References

/-! # Decoding and guarding come to an end

Objects, records, arrays and tuples ask their parts about values that are less deep, null being the least deep
of all where something is missing. All other combinators ask about the value itself. So where every cycle of
references passes through one of the former, decoding and guarding end, and what the decoder rejects lies behind
no more references than the value has levels for all definitions.
-/
namespace JsonShapes
set_option autoImplicit false

/-- The computation ends, and what it returns has the property. -/
def Promises.ending : Promises Option where
  Holds x P := ∃ a, x = some a ∧ P a
  pure h := ⟨_, rfl, h⟩
  bind hx hf := by
    obtain ⟨a, rfl, ha⟩ := hx
    exact hf a ha

open Promises (ending)

/-! ## Checks -/

def Step.isLazy : Step → Bool
  | .lazy _ => true
  | _ => false

/-- How many references are followed on the path. -/
def Path.lazies (path : Path) : Nat := path.countP Step.isLazy

namespace Decoded
variable {α : Type} {limit : Nat}

/-- Nothing is rejected behind more references than the limit. -/
abbrev Shallow (limit : Nat) (result : Decoded α) : Prop := result.Every (·.path.lazies ≤ limit)

namespace Shallow

theorem reject (v : Value) (expected : String) : Shallow limit (Decoded.reject v expected : Decoded α) :=
  Every.reject (Nat.zero_le limit)

theorem within {result : Decoded α} (h : result.Shallow limit) (step : Step) (hStep : step.isLazy = false) :
    Shallow limit (Decoded.within (.under step) result) := by
  refine Every.within h fun r hr => ?_
  rwa [Rejection.under, Path.lazies, List.countP_cons_of_neg (by simp [hStep])]

theorem lazy {result : Decoded α} (h : result.Shallow limit) (id : String) :
    Shallow (limit + 1) (Decoded.within (.lazy id) result) := by
  change Shallow (limit + 1) (Decoded.within (.under (.lazy id)) result)
  refine Every.within h fun r hr => ?_
  rw [Rejection.under, Path.lazies, List.countP_cons_of_pos rfl]
  exact Nat.succ_le_succ hr

theorem member {e : Failures String} (h : Shallow limit (.error e : Decoded α)) (branch : Nat) :
    Shallow limit (.error (.single (.member branch e)) : Decoded α) := within h (.member branch) rfl

theorem neither {e : Failures String} (h : Shallow limit (.error e : Decoded α)) (v : Value) (expected : String) :
    Shallow limit (.error (.join (.single (.member 0 (.single (.leaf v expected)))) (.single (.member 1 e))) :
      Decoded α) :=
  Every.both (member (reject v expected : Shallow limit (Decoded.reject v expected : Decoded α)) 0) (member h 1)

theorem extras (arity : Nat) (items : List Value) : Shallow limit (Check.extras arity items) := by
  apply Every.collect
  intro result hResult
  obtain ⟨item, _, rfl⟩ := List.mem_map.mp hResult
  exact within (reject item.1 "never") (.index item.2 .optional) rfl

end Shallow

end Decoded

namespace Check
open Decoded (Shallow)
variable {limit d : Nat} {check left right : Check Option}

/-- The check ends on all values less deep than `d`, with rejections behind few references. -/
def Ends (limit d : Nat) (check : Check Option) : Prop :=
  ∀ v, v.depth < d → ending.Holds (check v) (Shallow limit)

namespace Ends

theorem located (h : Ends limit d check) {w : Value} (hw : w.depth < d) (step : Step) (hStep : step.isLazy = false) :
    ending.Holds (do return Decoded.within (.under step) (← check w)) (Shallow limit) :=
  ending.bind (h w hw) fun _ hResult => ending.pure (Shallow.within hResult step hStep)

theorem kind (k : Kind) : Ends limit d (Check.kind k) := by
  intro v _
  apply ending.pure
  split
  · exact .ok _
  · exact Shallow.reject v _

theorem literal (values : List Value) : Ends limit d (Check.literal values) := by
  intro v _
  apply ending.pure
  split
  · exact .ok _
  · exact Shallow.reject v _

theorem lazy (id : String) (h : Ends limit d check) : Ends (limit + 1) d (Check.lazy id check) := by
  intro v hv
  exact ending.bind (h v hv) fun _ hResult => ending.pure (Shallow.lazy hResult id)

theorem nullable (h : Ends limit d check) : Ends limit d (Check.nullable check) := by
  intro v hv
  cases v with
  | null => exact ending.pure (.ok _)
  | _ =>
    apply ending.bind (h _ hv)
    intro result hResult
    cases result with
    | ok w => exact ending.pure (.ok w)
    | error e => exact ending.pure (Shallow.neither hResult _ "null")

theorem object {props : List (String × Check Option)} (h : ∀ p ∈ props, Ends limit d p.2) :
    Ends limit (d + 1) (Check.object props) := by
  intro v hv
  cases v with
  | obj entries =>
    refine ending.bind (ending.traverseKeyed fun p hp => ?_) fun _ hFields => ending.pure (hFields.map _)
    have hLess := Value.depth_property_lt entries p.1
    exact (h p hp).located (by omega) (.key p.1 .required) rfl
  | _ => exact ending.pure (Shallow.reject _ _)

theorem partialObject {props : List (String × Check Option)} (h : ∀ p ∈ props, Ends limit d p.2) :
    Ends limit (d + 1) (Check.partialObject props) := by
  intro v hv
  cases v with
  | obj entries =>
    refine ending.bind (ending.traverseKeyed fun slot hSlot => ?_) fun _ hFields => ending.pure (hFields.map _)
    obtain ⟨p, hp, hSlot⟩ := List.mem_filterMap.mp hSlot
    obtain ⟨raw, hRaw, rfl⟩ := Option.map_eq_some_iff.mp hSlot
    have hLess := Value.depth_part_lt (Value.mem_parts_of_get? hRaw)
    cases raw with
    | null => exact ending.pure (.ok _)
    | _ => exact (h p hp).located (by omega) (.key p.1 .optional) rfl
  | _ => exact ending.pure (Shallow.reject _ _)

theorem record (h : Ends limit d check) : Ends limit (d + 1) (Check.record check) := by
  intro v hv
  cases v with
  | obj entries =>
    refine ending.bind (ending.traverseKeyed fun e he => ?_) fun _ hFields => ending.pure (hFields.map _)
    have hLess := Value.depth_part_lt (v := .obj entries) (List.mem_map_of_mem he)
    exact h.located (by omega) (.key e.1 .required) rfl
  | _ => exact ending.pure (Shallow.reject _ _)

theorem array (h : Ends limit d check) : Ends limit (d + 1) (Check.array check) := by
  intro v hv
  cases v with
  | arr items =>
    refine ending.bind (ending.traverseIndexed fun item hItem => ?_) fun _ hValues => ending.pure (hValues.map _)
    have hLess := Value.depth_part_lt (v := .arr items) (List.fst_mem_of_mem_zipIdx hItem)
    exact h.located (by omega) (.index item.2 .optional) rfl
  | _ => exact ending.pure (Shallow.reject _ _)

theorem tuple {slots : List (Check Option)} (h : ∀ slot ∈ slots, Ends limit d slot) :
    Ends limit (d + 1) (Check.tuple slots) := by
  intro v hv
  cases v with
  | arr items =>
    have hSlots : ending.Holds (Checked.traverseIndexed slots fun i check => do
        let result ← check (items[i]?.getD .null)
        return Decoded.within (.index i .required) result) (Shallow limit) := by
      apply ending.traverseIndexed
      intro slot hSlot
      have hLess := Value.depth_element_lt items slot.2
      exact (h slot.1 (List.fst_mem_of_mem_zipIdx hSlot)).located (by omega) (.index slot.2 .required) rfl
    apply ending.bind hSlots
    intro values hValues
    exact ending.pure ((hValues.both (Shallow.extras slots.length items)).map _)
  | _ => exact ending.pure (Shallow.reject _ _)

theorem firstOf {members : List (Check Option)} (h : ∀ member ∈ members, Ends limit d member) {v : Value}
    (hv : v.depth < d) (start : Nat) : ending.Holds (Check.firstOf v start members) fun result =>
      ∀ es, result = .error es → ∀ e ∈ es, Shallow limit (.error e : Decoded Value) := by
  induction members generalizing start with
  | nil =>
    apply ending.pure
    intro es hes
    cases hes
    exact List.forall_mem_nil _
  | cons member rest ih =>
    obtain ⟨hHead, hRest⟩ := List.forall_mem_cons.mp h
    apply ending.bind (hHead v hv)
    intro result hResult
    cases result with
    | ok w => exact ending.pure fun es hes => nomatch hes
    | error e =>
      apply ending.bind (ih hRest (start + 1))
      intro others hOthers
      cases others with
      | ok w => exact ending.pure fun es hes => nomatch hes
      | error es =>
        apply ending.pure
        intro es' hes
        cases hes
        exact List.forall_mem_cons.mpr ⟨Shallow.member hResult start, hOthers es rfl⟩

theorem union {members : List (Check Option)} (h : ∀ member ∈ members, Ends limit d member) :
    Ends limit d (Check.union members) := by
  intro v hv
  apply ending.bind (firstOf h hv 0)
  intro result hResult
  match result with
  | .ok w => exact ending.pure (.ok w)
  | .error [] => exact ending.pure (Shallow.reject v "never")
  | .error (e :: es) => exact ending.pure (.joinAll (hResult (e :: es) rfl))

theorem inter (hLeft : Ends limit d left) (hRight : Ends limit d right) : Ends limit d (Check.inter left right) := by
  intro v hv
  apply ending.bind (hLeft v hv)
  intro l hl
  apply ending.bind (hRight v hv)
  intro r hr
  exact ending.pure ((hl.both hr).map _)

theorem tagged (tag : String) {members : List (String × Check Option)} (h : ∀ p ∈ members, Ends limit d p.2) :
    Ends limit d (Check.tagged tag members) := by
  intro v hv
  cases v with
  | obj entries =>
    simp only [Check.tagged]
    split
    · rename_i member hMember
      obtain ⟨name, hMem⟩ := Entries.mem_of_chosen hMember
      exact h _ hMem (.obj entries) hv
    · exact ending.pure (Shallow.within (Shallow.reject _ _) (.key tag .required) rfl)
  | _ => exact ending.pure (Shallow.reject _ _)

theorem refine (h : Ends limit d check) (holds : Value → Bool) (expected : String) : Ends limit d
    (Check.andThen check fun v w => if holds v then .ok w else Decoded.reject w expected) := by
  intro v hv
  apply ending.bind (h v hv)
  intro result hResult
  cases result with
  | error e => exact ending.pure hResult
  | ok w =>
    apply ending.pure
    dsimp only
    split
    · exact .ok w
    · exact Shallow.reject w expected

end Ends

end Check

/-! ## Tests -/

namespace Promises
variable {m : Type → Type} [Monad m] (E : Promises m) {τ : Type}

theorem allM {xs : List τ} {f : τ → m Bool} (h : ∀ x ∈ xs, E.Holds (f x) fun _ => True) :
    E.Holds (xs.allM f) fun _ => True := by
  induction xs with
  | nil => exact E.pure trivial
  | cons x rest ih =>
    obtain ⟨hHead, hRest⟩ := List.forall_mem_cons.mp h
    apply E.bind hHead
    intro b _
    cases b with
    | true => exact ih hRest
    | false => exact E.pure trivial

theorem anyM {xs : List τ} {f : τ → m Bool} (h : ∀ x ∈ xs, E.Holds (f x) fun _ => True) :
    E.Holds (xs.anyM f) fun _ => True := by
  induction xs with
  | nil => exact E.pure trivial
  | cons x rest ih =>
    obtain ⟨hHead, hRest⟩ := List.forall_mem_cons.mp h
    apply E.bind hHead
    intro b _
    cases b with
    | true => exact E.pure trivial
    | false => exact ih hRest

end Promises

namespace Test
variable {d : Nat} {test left right : Test Option}

/-- The test ends on all values less deep than `d`. -/
def Ends (d : Nat) (test : Test Option) : Prop := ∀ v, v.depth < d → ending.Holds (test v) fun _ => True

namespace Ends

theorem kind (k : Kind) : Ends d (Test.kind k) := fun _ _ => ending.pure trivial

theorem literal (values : List Value) : Ends d (Test.literal values) := fun _ _ => ending.pure trivial

theorem refine (h : Ends d test) (holds : Value → Bool) : Ends d (Test.refine test holds) := by
  intro v hv
  apply ending.bind (h v hv)
  intro b _
  cases b <;> exact ending.pure trivial

theorem nullable (h : Ends d test) : Ends d (Test.nullable test) := by
  intro v hv
  cases v with
  | null => exact ending.pure trivial
  | _ => exact h _ hv

theorem object {props : List (String × Test Option)} (h : ∀ p ∈ props, Ends d p.2) :
    Ends (d + 1) (Test.object props) := by
  intro v hv
  cases v with
  | obj entries =>
    apply ending.allM
    intro p hp
    have hLess := Value.depth_property_lt entries p.1
    exact h p hp _ (by omega)
  | _ => exact ending.pure trivial

theorem partialObject {props : List (String × Test Option)} (h : ∀ p ∈ props, Ends d p.2) :
    Ends (d + 1) (Test.partialObject props) := by
  intro v hv
  cases v with
  | obj entries =>
    apply ending.allM
    intro p hp
    have hLess := Value.depth_property_lt entries p.1
    split
    · exact ending.pure trivial
    · exact ending.pure trivial
    · rename_i raw _ hRaw
      rw [hRaw] at hLess
      exact h p hp _ (by exact Nat.lt_of_lt_of_le hLess (Nat.le_of_lt_succ hv))
  | _ => exact ending.pure trivial

theorem record (h : Ends d test) : Ends (d + 1) (Test.record test) := by
  intro v hv
  cases v with
  | obj entries =>
    apply ending.allM
    intro e he
    have hLess := Value.depth_part_lt (v := .obj entries) (List.mem_map_of_mem he)
    exact h _ (by omega)
  | _ => exact ending.pure trivial

theorem array (h : Ends d test) : Ends (d + 1) (Test.array test) := by
  intro v hv
  cases v with
  | arr items =>
    apply ending.allM
    intro item hItem
    have hLess := Value.depth_part_lt (v := .arr items) hItem
    exact h item (by omega)
  | _ => exact ending.pure trivial

theorem tuple {slots : List (Test Option)} (h : ∀ slot ∈ slots, Ends d slot) :
    Ends (d + 1) (Test.tuple slots) := by
  intro v hv
  cases v with
  | arr items =>
    rw [Test.tuple]
    split
    · apply ending.allM
      intro slot hSlot
      have hLess := Value.depth_element_lt items slot.2
      exact h slot.1 (List.fst_mem_of_mem_zipIdx hSlot) _ (by omega)
    · exact ending.pure trivial
  | _ => exact ending.pure trivial

theorem union {members : List (Test Option)} (h : ∀ member ∈ members, Ends d member) :
    Ends d (Test.union members) := fun v hv => ending.anyM fun member hMember => h member hMember v hv

theorem inter (hLeft : Ends d left) (hRight : Ends d right) : Ends d (Test.inter left right) := by
  intro v hv
  apply ending.bind (hLeft v hv)
  intro b _
  cases b with
  | true => exact hRight v hv
  | false => exact ending.pure trivial

theorem tagged (tag : String) {members : List (String × Test Option)} (h : ∀ p ∈ members, Ends d p.2) :
    Ends d (Test.tagged tag members) := by
  intro v hv
  rw [Test.tagged]
  split
  · rename_i member hMember
    obtain ⟨name, hMem⟩ := Entries.mem_of_chosen hMember
    exact h _ hMem v hv
  · exact ending.pure trivial

end Ends

end Test

/-! ## Schemas -/

namespace Schema

/-- A part of a schema of this kind is asked only about what is inside the value. -/
def isContainer : Schema → Bool
  | object _ | partialObject _ | record _ | array _ | tuple _ => true
  | _ => false

variable {definitions : Definitions}

/-- What is rejected under a bound lies behind no more references than the bound allows. -/
theorem decode_descends :
    definitions.Descends isContainer 0 fun n d s => Check.Ends n d (s.decode definitions n) where
  none _ _ _ hv := absurd hv (Nat.not_lt_zero _)
  link n d link t hFound h := by
    intro v hv
    rw [decode_lazy_succ, hFound]
    exact h.lazy link.id v hv
  step n d s hNoLink _ _ hParts := by
    cases s with
    | kind k =>
      rw [decode_kind]
      exact .kind k
    | literal values => exact .literal values
    | nullable or =>
      rw [decode_nullable]
      exact .nullable (hParts or List.mem_cons_self)
    | object props =>
      rw [decode_object]
      exact .object (Entries.forall_mem_mapped hParts)
    | partialObject props =>
      rw [decode_partialObject]
      exact .partialObject (Entries.forall_mem_mapped hParts)
    | record of =>
      rw [decode_record]
      exact .record (hParts of List.mem_cons_self)
    | array of =>
      rw [decode_array]
      exact .array (hParts of List.mem_cons_self)
    | tuple slots =>
      rw [decode_tuple]
      exact .tuple (List.forall_mem_map.mpr hParts)
    | union members =>
      rw [decode_union]
      exact .union (List.forall_mem_map.mpr hParts)
    | inter left right =>
      rw [decode_inter]
      exact .inter (hParts left List.mem_cons_self) (hParts right (List.mem_cons_of_mem _ List.mem_cons_self))
    | tagged tag members =>
      rw [decode_tagged]
      exact .tagged tag (Entries.forall_mem_mapped hParts)
    | refine of holds expected =>
      rw [decode_refine]
      exact .refine (hParts of List.mem_cons_self) holds expected
    | lazy link => exact absurd rfl (hNoLink link)
    | make key body => exact hParts body List.mem_cons_self

theorem accepts_descends :
    definitions.Descends isContainer 0 fun n d s => Test.Ends d (s.accepts definitions n) where
  none _ _ _ hv := absurd hv (Nat.not_lt_zero _)
  link n d link t hFound h := by
    intro v hv
    rw [accepts_eq] at h ⊢
    change ending.Holds ((definitions.get? link.target).bind fun s => _) _
    rw [hFound]
    exact h v hv
  step n d s hNoLink _ _ hParts := by
    simp only [accepts_eq] at hParts ⊢
    cases s with
    | kind k => exact .kind k
    | literal values => exact .literal values
    | nullable or => exact .nullable (hParts or List.mem_cons_self)
    | object props =>
      rw [unfold, unfoldNamed_eq]
      exact .object (Entries.forall_mem_mapped hParts)
    | partialObject props =>
      rw [unfold, unfoldNamed_eq]
      exact .partialObject (Entries.forall_mem_mapped hParts)
    | record of => exact .record (hParts of List.mem_cons_self)
    | array of => exact .array (hParts of List.mem_cons_self)
    | tuple slots =>
      rw [unfold, unfoldEach_eq]
      exact .tuple (List.forall_mem_map.mpr hParts)
    | union members =>
      rw [unfold, unfoldEach_eq]
      exact .union (List.forall_mem_map.mpr hParts)
    | inter left right =>
      exact .inter (hParts left List.mem_cons_self) (hParts right (List.mem_cons_of_mem _ List.mem_cons_self))
    | tagged tag members =>
      rw [unfold, unfoldNamed_eq]
      exact .tagged tag (Entries.forall_mem_mapped hParts)
    | refine of holds expected => exact .refine (hParts of List.mem_cons_self) holds
    | lazy link => exact absurd rfl (hNoLink link)
    | make key body => exact hParts body List.mem_cons_self

end Schema

namespace Interpreter
variable {definitions : Definitions} {A : Assignment} {schema : Schema}

/-- A decoder and a guard end on every value, and what is rejected lies behind no more references than there
are definitions for every level of the value. -/
theorem decoding_and_guarding_end (hDefinitions : definitions.Follow A) (hSchema : schema.Follows A)
    (hWhole : definitions.Whole) (hOver : schema.Over definitions)
    (hGuarded : definitions.Guarded Schema.isContainer) (v : Value) :
    ∃ result answer,
      (∀ bound, definitions.length * (v.depth + 1) ≤ bound →
        decoders.fresh definitions bound schema v = some result ∧
          guards.fresh definitions bound schema v = some answer) ∧
      ∀ e, result = .error e → ∀ r ∈ Failures.rejections e, r.path.lazies ≤ definitions.length * (v.depth + 1) := by
  have hLess := Nat.lt_succ_self v.depth
  obtain ⟨result, hDecoded, hShallow⟩ :=
    Schema.decode_descends.holds hGuarded hWhole hOver (Nat.le_refl _) v hLess
  obtain ⟨answer, hAnswer, _⟩ :=
    Schema.accepts_descends.holds hGuarded hWhole hOver (Nat.le_refl _) v hLess
  refine ⟨result, answer, ?_, ?_⟩
  · intro bound hBound
    rw [fresh_eq decoders_faithful hDefinitions hSchema, fresh_eq guards_faithful hDefinitions hSchema]
    exact ⟨Schema.decode_mono hBound hDecoded, Schema.accepts_mono hBound hAnswer⟩
  · rintro e rfl
    exact hShallow

end Interpreter

/-! ## Groves

A grove is a tree or some of them, which leads on to a tree at once; a tree leads back to a grove, but only in a
property.
-/
namespace Groves

def grove : Schema := .union [.lazy ⟨"Tree", 0, "Tree"⟩, .array (.lazy ⟨"Tree", 0, "Tree"⟩)]

def tree : Schema := .object [("label", .kind .string), ("below", .nullable (.lazy ⟨"Grove", 1, "Grove"⟩))]

def definitions : Definitions := [("Grove", grove), ("Tree", tree)]

def assignment : Assignment := ⟨fun id _ => id, fun _ => .kind .null⟩

theorem grove_follows : grove.Follows assignment := by
  constructor
  · simp [grove, Schema.links, Schema.linksEach, assignment]
  · simp [grove, Schema.keyed, Schema.keyedEach]

theorem tree_follows : tree.Follows assignment := by
  constructor
  · simp [tree, Schema.links, Schema.linksNamed, assignment]
  · simp [tree, Schema.keyed, Schema.keyedNamed]

theorem definitions_follow : definitions.Follow assignment := by
  simp [Definitions.Follow, definitions, grove_follows, tree_follows]

theorem grove_over : grove.Over definitions := by
  simp [Schema.Over, grove, Schema.links, Schema.linksEach, definitions, Entries.keys]

theorem definitions_whole : definitions.Whole := by
  have hTree : tree.Over definitions := by
    simp [Schema.Over, tree, Schema.links, Schema.linksNamed, definitions, Entries.keys]
  intro e he
  rcases List.mem_pair.mp he with rfl | rfl
  · exact grove_over
  · exact hTree

theorem definitions_guarded : definitions.Guarded Schema.isContainer := by
  apply Definitions.Guarded.of_order fun name => if name = "Grove" then 1 else 0
  rintro a b ⟨s, link, hFound, hExposed, rfl⟩
  rcases List.mem_pair.mp (Entries.mem_of_get? hFound) with hGrove | hTree
  · cases hGrove
    cases hExposed with
    | part _ ht hExposed =>
      rcases List.mem_pair.mp ht with rfl | rfl
      · cases hExposed with
        | here => decide
        | part _ ht _ => cases ht
      · cases hExposed with
        | part hStops _ _ => cases hStops
  · cases hTree
    cases hExposed with
    | part hStops _ _ => cases hStops

def wilted : Value := .arr [.obj [("label", .str "a"), ("below", .arr [.obj [("below", .bool true)]])]]

theorem wilted_ends : definitions.Guarded Schema.isContainer ∧ ∃ result answer,
    (∀ bound, 10 ≤ bound → Interpreter.decoders.fresh definitions bound grove wilted = some result ∧
      Interpreter.guards.fresh definitions bound grove wilted = some answer) ∧
    ∀ e, result = .error e → ∀ r ∈ Failures.rejections e, r.path.lazies ≤ 10 :=
  ⟨definitions_guarded, Interpreter.decoding_and_guarding_end definitions_follow grove_follows definitions_whole
    grove_over definitions_guarded wilted⟩

end Groves

end JsonShapes
