import JsonShapes.Proofs.Successes
import JsonShapes.Proofs.Termination.Decoding

/-! # Where encoding comes to an end

An encoder takes a property that is missing from null, whatever the value is, so an object is no end when null
is encoded: its properties are encoded from null in turn. Encoding therefore ends on all values exactly if every
cycle of references passes through something that leaves null as it is or makes an empty object or array of it.
Going into the value by itself is not enough.
-/
namespace JsonShapes
set_option autoImplicit false

open Promises (ending)

/-- Null is encoded without regard to the parts. Unions are among these only because they are not encoded at all:
encoders have no combinator for them. -/
def Schema.haltsOnNull : Schema → Bool
  | nullable _ | partialObject _ | record _ | array _ | tuple _ | union _ | tagged _ _ => true
  | _ => false

theorem Value.mem_parts_of_mem_entries {v : Value} {e : String × Value} (h : e ∈ v.entries) : e.2 ∈ v.parts := by
  cases v with
  | obj entries => exact List.mem_map_of_mem h
  | _ => cases h

theorem Value.mem_parts_of_mem_items {v w : Value} (h : w ∈ v.items) : w ∈ v.parts := by
  cases v with
  | arr items => exact h
  | _ => cases h

/-! ## Transforms -/

namespace Transform
variable {d : Nat} {transform left right : Transform Option}

/-- The transform ends on all values less deep than `d`. -/
def Ends (d : Nat) (transform : Transform Option) : Prop :=
  ∀ v, v.depth < d → ending.Holds (transform v) fun _ => True

theorem object_ends {props : List (String × Transform Option)} {v : Value}
    (h : ∀ p ∈ props, ending.Holds (p.2 ((Entries.get? v.entries p.1).getD .null)) fun _ => True) :
    ending.Holds (Transform.object props v) fun _ => True := by
  refine ending.bind (ending.mapM (P := fun _ => True) fun p hp => ?_) fun _ _ => ending.pure trivial
  exact ending.bind (h p hp) fun _ _ => ending.pure trivial

theorem inter_ends {v : Value} (hLeft : ending.Holds (left v) fun _ => True)
    (hRight : ending.Holds (right v) fun _ => True) : ending.Holds (Transform.inter left right v) fun _ => True :=
  ending.bind hLeft fun _ _ => ending.bind hRight fun _ _ => ending.pure trivial

theorem partialObject_null (props : List (String × Transform Option)) :
    Transform.partialObject props .null = some (.obj []) := by
  have hNone : (props.filterMap fun p => (Entries.get? Value.null.entries p.1).map fun raw => (p.1, p.2, raw)) = [] :=
    List.filterMap_eq_nil_iff.mpr fun _ _ => rfl
  rw [Transform.partialObject, hNone]
  rfl

namespace Ends

theorem convert (f : Value → Value) : Ends d (Transform.convert f) := fun _ _ => ending.pure trivial

theorem nullable (h : Ends d transform) : Ends d (Transform.nullable transform) := by
  intro v hv
  cases v with
  | null => exact ending.pure trivial
  | _ => exact h _ hv

/-- The properties are encoded from what is inside the value or from null. -/
theorem object {props : List (String × Transform Option)} (h : ∀ p ∈ props, Ends d p.2)
    (hNull : ∀ p ∈ props, ending.Holds (p.2 .null) fun _ => True) : Ends (d + 1) (Transform.object props) := by
  intro v hv
  apply object_ends
  intro p hp
  cases hFound : Entries.get? v.entries p.1 with
  | none => exact hNull p hp
  | some raw =>
    have hLess := Value.depth_part_lt (Value.mem_parts_of_mem_entries (Entries.mem_of_get? hFound))
    exact h p hp raw (by exact Nat.lt_of_lt_of_le hLess (Nat.le_of_lt_succ hv))

theorem partialObject {props : List (String × Transform Option)} (h : ∀ p ∈ props, Ends d p.2) :
    Ends (d + 1) (Transform.partialObject props) := by
  intro v hv
  refine ending.bind (ending.mapM (P := fun _ => True) fun slot hSlot => ?_) fun _ _ => ending.pure trivial
  obtain ⟨p, hp, hSlot⟩ := List.mem_filterMap.mp hSlot
  obtain ⟨raw, hRaw, rfl⟩ := Option.map_eq_some_iff.mp hSlot
  have hLess := Value.depth_part_lt (Value.mem_parts_of_mem_entries (Entries.mem_of_get? hRaw))
  cases raw with
  | null => exact ending.pure trivial
  | _ => exact ending.bind (h p hp _ (Nat.lt_of_lt_of_le hLess (Nat.le_of_lt_succ hv))) fun _ _ => ending.pure trivial

theorem record (h : Ends d transform) : Ends (d + 1) (Transform.record transform) := by
  intro v hv
  refine ending.bind (ending.mapM (P := fun _ => True) fun e he => ?_) fun _ _ => ending.pure trivial
  have hLess := Value.depth_part_lt (Value.mem_parts_of_mem_entries he)
  exact ending.bind (h e.2 (by omega)) fun _ _ => ending.pure trivial

theorem array (h : Ends d transform) : Ends (d + 1) (Transform.array transform) := by
  intro v hv
  refine ending.bind (ending.mapM (P := fun _ => True) fun item hItem => ?_) fun _ _ => ending.pure trivial
  have hLess := Value.depth_part_lt (Value.mem_parts_of_mem_items hItem)
  exact h item (by omega)

theorem tuple {slots : List (Transform Option)} (h : ∀ slot ∈ slots, Ends d slot) :
    Ends (d + 1) (Transform.tuple slots) := by
  intro v hv
  refine ending.bind (ending.mapM (P := fun _ => True) fun p hp => ?_) fun _ _ => ending.pure trivial
  have hLess := Value.depth_part_lt (Value.mem_parts_of_mem_items (List.of_mem_zip hp).1)
  exact h p.2 (List.of_mem_zip hp).2 p.1 (by omega)

theorem inter (hLeft : Ends d left) (hRight : Ends d right) : Ends d (Transform.inter left right) :=
  fun v hv => inter_ends (hLeft v hv) (hRight v hv)

theorem tagged (tag : String) {members : List (String × Transform Option)} (h : ∀ p ∈ members, Ends d p.2) :
    Ends d (Transform.tagged tag members) := by
  intro v hv
  rw [Transform.tagged]
  split
  · rename_i member hMember
    obtain ⟨name, hMem⟩ := Entries.mem_of_chosen hMember
    exact h _ hMem v hv
  · exact ending.pure trivial

end Ends

end Transform

namespace Schema
variable {definitions : Definitions}

/-! ## Encoding null -/

theorem encode_null_descends : definitions.Descends haltsOnNull 0 fun n d s =>
    0 < d → ending.Holds (s.encode definitions n .null) fun _ => True where
  none _ _ hd := absurd hd (Nat.lt_irrefl 0)
  link n d link t hFound h hd := by
    rw [encode_lazy_succ, hFound]
    exact h hd
  step n d s hNoLink _ _ hParts hd := by
    cases s with
    | object props =>
      rw [encode_object]
      apply Transform.object_ends
      exact Entries.forall_mem_mapped
        (P := fun transform : Transform Option => ending.Holds (transform .null) fun _ => True)
        fun t ht => hParts t ht hd
    | inter left right =>
      rw [encode_inter]
      exact Transform.inter_ends (hParts left List.mem_cons_self hd)
        (hParts right (List.mem_cons_of_mem _ List.mem_cons_self) hd)
    | refine of holds expected => exact hParts of List.mem_cons_self hd
    | make key body => exact hParts body List.mem_cons_self hd
    | lazy link => exact absurd rfl (hNoLink link)
    | kind k => exact ending.pure trivial
    | literal values => exact ending.pure trivial
    | union members => exact ending.pure trivial
    | nullable or =>
      rw [encode_nullable]
      exact ending.pure trivial
    | partialObject props =>
      rw [encode_partialObject, Transform.partialObject_null]
      exact ending.pure trivial
    | record of =>
      rw [encode_record]
      exact ending.pure trivial
    | array of =>
      rw [encode_array]
      exact ending.pure trivial
    | tuple slots =>
      rw [encode_tuple]
      exact ending.pure trivial
    | tagged tag members =>
      rw [encode_tagged]
      exact ending.pure trivial

theorem encode_null_ends (hHalting : definitions.Guarded haltsOnNull) (hWhole : definitions.Whole) {n : Nat}
    {s : Schema} (hOver : s.Over definitions) (hBound : definitions.length ≤ n) :
    ending.Holds (s.encode definitions n .null) fun _ => True := by
  refine encode_null_descends.holds hHalting hWhole (d := 0) hOver ?_ (Nat.succ_pos 0)
  omega

/-- Nothing that stands between a schema and a link that it exposes gives null back. -/
theorem encode_null_eq_none {n : Nat} {link : Link} {s : Schema} (hExposed : s.Exposes haltsOnNull link)
    (hLink : (lazy link).encode definitions n .null = none) : s.encode definitions n .null = none := by
  induction hExposed with
  | here => exact hLink
  | @part s t hStops ht _ ih =>
    cases s with
    | kind _ | literal _ | lazy _ => cases ht
    | nullable _ | partialObject _ | record _ | array _ | tuple _ | union _ | tagged _ _ => cases hStops
    | object props =>
      obtain ⟨e, he, rfl⟩ := List.mem_map.mp ht
      rw [encode_object, Option.eq_none_iff_forall_ne_some]
      intro w hw
      obtain ⟨fields, hFields, _⟩ := Option.bind_eq_some_iff.mp hw
      obtain ⟨_, _, hField⟩ := forall₂_mem_left (mapM_eq_some_iff.mp hFields) (List.mem_map_of_mem he)
      obtain ⟨x, hx, _⟩ := Option.bind_eq_some_iff.mp hField
      exact nomatch ih.symm.trans hx
    | inter left right =>
      rw [encode_inter, Option.eq_none_iff_forall_ne_some]
      intro w hw
      obtain ⟨l, hl, hw⟩ := Option.bind_eq_some_iff.mp hw
      obtain ⟨r, hr, _⟩ := Option.bind_eq_some_iff.mp hw
      rcases List.mem_pair.mp ht with rfl | rfl
      · exact nomatch ih.symm.trans hl
      · exact nomatch ih.symm.trans hr
    | refine of holds expected =>
      cases List.mem_singleton.mp ht
      exact ih
    | make key body =>
      cases List.mem_singleton.mp ht
      exact ih

/-- On a cycle that nothing stops, null is encoded by encoding null again. -/
theorem encode_cycle_eq_none {link : Link}
    (hCycle : Relation.TransGen (definitions.Refers haltsOnNull) link.target link.target) (n : Nat) :
    (lazy link).encode definitions n .null = none := by
  induction n generalizing link with
  | zero => exact encode_lazy_zero link .null
  | succ n ih =>
    obtain ⟨name, hStep, hBack⟩ := Relation.TransGen.head'_iff.mp hCycle
    have hNext := Relation.TransGen.tail' hBack hStep
    obtain ⟨s, next, hFound, hExposed, rfl⟩ := hStep
    rw [encode_lazy_succ, hFound, Option.bind_some]
    exact encode_null_eq_none hExposed (ih hNext)

/-! ## Encoding any value -/

theorem encode_descends (hHalting : definitions.Guarded haltsOnNull) (hWhole : definitions.Whole) :
    definitions.Descends isContainer definitions.length fun n d s => Transform.Ends d (s.encode definitions n) where
  none _ _ _ hv := absurd hv (Nat.not_lt_zero _)
  link n d link t hFound h := by
    intro v hv
    rw [encode_lazy_succ, hFound]
    exact h v hv
  step n d s hNoLink hOver hBound hParts := by
    cases s with
    | kind k => exact .convert _
    | literal values => exact .convert _
    | nullable or =>
      rw [encode_nullable]
      exact .nullable (hParts or List.mem_cons_self)
    | object props =>
      have hNull : ∀ t ∈ props.map (·.2), ending.Holds (t.encode definitions n .null) fun _ => True :=
        fun t ht => encode_null_ends hHalting hWhole (hOver.part ht) hBound
      rw [encode_object]
      apply Transform.Ends.object (Entries.forall_mem_mapped hParts)
      exact Entries.forall_mem_mapped
        (P := fun transform : Transform Option => ending.Holds (transform .null) fun _ => True) hNull
    | partialObject props =>
      rw [encode_partialObject]
      exact .partialObject (Entries.forall_mem_mapped hParts)
    | record of =>
      rw [encode_record]
      exact .record (hParts of List.mem_cons_self)
    | array of =>
      rw [encode_array]
      exact .array (hParts of List.mem_cons_self)
    | tuple slots =>
      rw [encode_tuple]
      exact .tuple (List.forall_mem_map.mpr hParts)
    | union members => exact .convert _
    | inter left right =>
      rw [encode_inter]
      exact .inter (hParts left List.mem_cons_self) (hParts right (List.mem_cons_of_mem _ List.mem_cons_self))
    | tagged tag members =>
      rw [encode_tagged]
      exact .tagged tag (Entries.forall_mem_mapped hParts)
    | refine of holds expected => exact hParts of List.mem_cons_self
    | lazy link => exact absurd rfl (hNoLink link)
    | make key body => exact hParts body List.mem_cons_self

end Schema

namespace Interpreter
variable {definitions : Definitions} {A : Assignment}

/-- Over guarded definitions encoding ends on every value, if every cycle of references passes through something
that halts on null, and otherwise there is a link whose encoder never ends on null. -/
theorem encoding_ends_iff_halting (hDefinitions : definitions.Follow A) (hWhole : definitions.Whole)
    (hGuarded : definitions.Guarded Schema.isContainer) :
    (definitions.Guarded Schema.haltsOnNull →
      ∀ schema, schema.Follows A → schema.Over definitions → ∀ v, ∃ w, ∀ bound,
        definitions.length * (v.depth + 2) ≤ bound → encoders.fresh definitions bound schema v = some w) ∧
    (¬definitions.Guarded Schema.haltsOnNull →
      ∃ link, (Schema.lazy link).Follows A ∧ (Schema.lazy link).Over definitions ∧
        ∀ bound, encoders.fresh definitions bound (.lazy link) .null = none) := by
  constructor
  · intro hHalting schema hSchema hOver v
    obtain ⟨w, hEncoded, _⟩ := (Schema.encode_descends hHalting hWhole).holds hGuarded hWhole hOver
      (Nat.le_refl _) v (Nat.lt_succ_self v.depth)
    refine ⟨w, fun bound hBound => ?_⟩
    rw [fresh_eq encoders_faithful hDefinitions hSchema]
    refine Schema.encode_mono ?_ hEncoded
    rwa [← Nat.mul_succ]
  · intro hCyclic
    obtain ⟨name, hCycle⟩ := not_forall_not.mp hCyclic
    obtain ⟨last, _, s, link, hFound, hExposed, rfl⟩ := Relation.TransGen.tail'_iff.mp hCycle
    have hMem := Entries.mem_of_get? hFound
    have hFollows : (Schema.lazy link).Follows A := by
      constructor
      · intro other hOther
        cases List.mem_singleton.mp hOther
        exact (hDefinitions _ hMem).links link hExposed.mem_links
      · exact List.forall_mem_nil _
    refine ⟨link, hFollows, ?_, ?_⟩
    · intro other hOther
      cases List.mem_singleton.mp hOther
      exact hWhole _ hMem link hExposed.mem_links
    · intro bound
      rw [fresh_eq encoders_faithful hDefinitions hFollows]
      exact Schema.encode_cycle_eq_none hCycle bound

end Interpreter

namespace Groves

theorem definitions_halting : definitions.Guarded Schema.haltsOnNull := by
  apply Definitions.Guarded.of_order fun _ => 0
  rintro a b ⟨s, link, hFound, hExposed, rfl⟩
  rcases List.mem_pair.mp (Entries.mem_of_get? hFound) with hGrove | hTree
  · cases hGrove
    cases hExposed with
    | part hStops _ _ => cases hStops
  · cases hTree
    cases hExposed with
    | part _ ht hExposed =>
      rcases List.mem_pair.mp ht with rfl | rfl
      · cases hExposed with
        | part _ ht _ => cases ht
      · cases hExposed with
        | part hStops _ _ => cases hStops

theorem wilted_encoded : definitions.Guarded Schema.isContainer ∧ definitions.Guarded Schema.haltsOnNull ∧
    ∃ w, ∀ bound, 12 ≤ bound → Interpreter.encoders.fresh definitions bound grove wilted = some w :=
  ⟨definitions_guarded, definitions_halting, (Interpreter.encoding_ends_iff_halting definitions_follow
    definitions_whole definitions_guarded).1 definitions_halting grove grove_follows grove_over wilted⟩

end Groves

/-! ## Endless chains

Every element of a chain has a next one, so no value is a chain, and null is encoded as an object whose property
is encoded from null.
-/
namespace Chains

def link : Link := ⟨"Chain", 0, "Chain"⟩

def chain : Schema := .object [("next", .lazy link)]

def definitions : Definitions := [("Chain", chain)]

def assignment : Assignment := ⟨fun id _ => id, fun _ => .kind .null⟩

theorem definitions_refers {stops : Schema → Bool} {a b : String} (h : definitions.Refers stops a b) :
    stops chain = false ∧ a = "Chain" ∧ b = "Chain" := by
  obtain ⟨s, link, hFound, hExposed, rfl⟩ := h
  cases List.mem_singleton.mp (Entries.mem_of_get? hFound)
  cases hExposed with
  | part hStops ht hExposed =>
    cases List.mem_singleton.mp ht
    cases hExposed with
    | here => exact ⟨hStops, rfl, rfl⟩
    | part _ ht _ => cases ht

theorem definitions_follow : definitions.Follow assignment := by
  intro e he
  cases List.mem_singleton.mp he
  constructor
  · simp [chain, Schema.links, Schema.linksNamed, link, assignment]
  · simp [chain, Schema.keyed, Schema.keyedNamed]

theorem chain_cyclic : Relation.TransGen (definitions.Refers Schema.haltsOnNull) "Chain" "Chain" :=
  .single ⟨chain, link, rfl, .part rfl List.mem_cons_self .here, rfl⟩

theorem encoding_never_ends :
    definitions.Follow assignment ∧ definitions.Whole ∧ definitions.Guarded Schema.isContainer ∧
      (Schema.lazy link).Follows assignment ∧ (Schema.lazy link).Over definitions ∧
      (∀ t ∈ (Schema.lazy link).nodes ++ Schema.nodesNamed definitions, ∀ members, t ≠ .union members) ∧
      ∀ bound, Interpreter.encoders.fresh definitions bound (.lazy link) .null = none := by
  have hFollows : (Schema.lazy link).Follows assignment := by
    constructor
    · simp [Schema.links, link, assignment]
    · simp [Schema.keyed]
  have hOver : (Schema.lazy link).Over definitions := by
    simp [Schema.Over, Schema.links, link, definitions, Entries.keys]
  have hWhole : definitions.Whole := by
    intro e he
    cases List.mem_singleton.mp he
    simp [Schema.Over, chain, Schema.links, Schema.linksNamed, link, definitions, Entries.keys]
  have hGuarded : definitions.Guarded Schema.isContainer := by
    apply Definitions.Guarded.of_order fun _ => 0
    intro a b hRefers
    cases (definitions_refers hRefers).1
  have hNoUnion : ∀ t ∈ (Schema.lazy link).nodes ++ Schema.nodesNamed definitions, ∀ members, t ≠ .union members := by
    simp [definitions, chain, Schema.nodes, Schema.nodesNamed]
  refine ⟨definitions_follow, hWhole, hGuarded, hFollows, hOver, hNoUnion, fun bound => ?_⟩
  rw [Interpreter.fresh_eq Interpreter.encoders_faithful definitions_follow hFollows]
  exact Schema.encode_cycle_eq_none chain_cyclic bound

end Chains

end JsonShapes
