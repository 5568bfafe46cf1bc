import JsonShapes.Proofs.Memoization.Running

/-! # Registries grow

Whatever is done with a registry, a handle stays what it is and a definition that has been settled keeps its value.
Forcing a definition leaves it settled, as long as nothing is settled while its value is built.
-/
namespace JsonShapes.Registry
set_option autoImplicit false

variable {τ ρ : Type}

/-- The value that is kept behind a handle. -/
def settled? (r : Registry τ ρ) (handle : Nat) : Option ρ := (r.definition? handle).bind (·.value)

theorem settled?_of_definition {r : Registry τ ρ} {handle : Nat} {d : Definition τ ρ}
    (h : r.definition? handle = some d) : r.settled? handle = d.value := by
  rw [settled?, h, Option.bind_some]

theorem settled?_define (r : Registry τ ρ) (id : String) (site : Nat) (thunk : τ) (handle : Nat) :
    (r.define id site thunk).2.settled? handle = r.settled? handle := by
  unfold define
  cases r.definitions.findIdx? (matching id site) with
  | some _ => rfl
  | none =>
    dsimp only [settled?, definition?]
    rw [List.getElem?_append]
    split
    · rfl
    · rename_i hPast
      rw [List.getElem?_eq_none (Nat.le_of_not_lt hPast), List.getElem?_singleton]
      split <;> rfl

theorem settled?_settle (r : Registry τ ρ) (handle : Nat) (v : ρ) (i : Nat) :
    (r.settle handle v).settled? i = (r.definition? i).bind fun d =>
      if handle = i then d.value.or (some v) else d.value := by
  rw [settled?, definition?, getElem?_settle, Option.bind_map, definition?]
  congr 1
  funext d
  rw [Function.comp_apply]
  split <;> rfl

theorem settled?_settle_of_ne (r : Registry τ ρ) {handle i : Nat} (h : handle ≠ i) (v : ρ) :
    (r.settle handle v).settled? i = r.settled? i := by
  rw [settled?_settle, settled?]
  simp only [if_neg h]

/-- A definition that is still without a value keeps the one it gets. -/
theorem settled?_settle_self {r : Registry τ ρ} {handle : Nat} {d : Definition τ ρ}
    (hDefinition : r.definition? handle = some d) (hValue : d.value = none) (v : ρ) :
    (r.settle handle v).settled? handle = some v := by
  rw [settled?_settle, hDefinition, Option.bind_some, if_pos rfl, hValue, Option.none_or]

/-- What is settled has been settled before, unless it is what has just been settled. -/
theorem settled?_settle_cases {r : Registry τ ρ} {handle i : Nat} {v w : ρ}
    (h : (r.settle handle v).settled? i = some w) : r.settled? i = some w ∨ handle = i ∧ w = v := by
  by_cases hSame : handle = i
  · simp only [settled?_settle, if_pos hSame] at h
    obtain ⟨d, hDefinition, hValue⟩ := Option.bind_eq_some_iff.mp h
    rcases Option.or_eq_some_iff.mp hValue with hValue | ⟨_, hValue⟩
    · exact .inl ((settled?_of_definition hDefinition).trans hValue)
    · exact .inr ⟨hSame, (Option.some.inj hValue).symm⟩
  · exact .inl ((settled?_settle_of_ne r hSame v).symm.trans h)

theorem place_of_prefix {r r' : Registry τ ρ} (h : r.places <+: r'.places) {handle : Nat}
    {place : String × Nat} (hPlace : r.places[handle]? = some place) : r'.places[handle]? = some place := by
  obtain ⟨later, hLater⟩ := h
  rw [← hLater, List.getElem?_append_left (List.getElem?_eq_some_iff.mp hPlace).1, hPlace]

/-- Handles and settled values are kept, and what is settled besides satisfies `P`. -/
structure Grows (P : ρ → Prop) (r r' : Registry τ ρ) : Prop where
  places : r.places <+: r'.places
  kept : ∀ {handle v}, r.settled? handle = some v → r'.settled? handle = some v
  fresh : ∀ {handle v}, r'.settled? handle = some v → r.settled? handle = some v ∨ P v

namespace Grows
variable {P Q : ρ → Prop} {r r' r'' : Registry τ ρ}

theorem refl (r : Registry τ ρ) : r.Grows P r := ⟨List.prefix_rfl, fun h => h, .inl⟩

theorem trans (h : r.Grows P r') (h' : r'.Grows P r'') : r.Grows P r'' where
  places := h.places.trans h'.places
  kept hv := h'.kept (h.kept hv)
  fresh hv := (h'.fresh hv).elim h.fresh .inr

theorem mono (h : r.Grows P r') (hImp : ∀ v, P v → Q v) : r.Grows Q r' :=
  ⟨h.places, h.kept, fun hv => (h.fresh hv).imp_right (hImp _)⟩

theorem define (id : String) (site : Nat) (thunk : τ) : r.Grows P (r.define id site thunk).2 where
  places := (r.define_spec id site thunk).2.1
  kept hv := (r.settled?_define id site thunk _).trans hv
  fresh hv := .inl ((r.settled?_define id site thunk _).symm.trans hv)

theorem beginRun (handle : Nat) : r.Grows P (r.beginRun handle) := ⟨List.prefix_rfl, fun h => h, .inl⟩

theorem settle {handle : Nat} {v : ρ} (hv : P v) : r.Grows P (r.settle handle v) where
  places := (r.places_settle handle v).symm ▸ List.prefix_rfl
  kept {i w} hw := by
    obtain ⟨d, hDefinition, hValue⟩ := Option.bind_eq_some_iff.mp hw
    rw [settled?_settle, hDefinition, Option.bind_some, hValue]
    split <;> rfl
  fresh hw := by
    rcases settled?_settle_cases hw with hOld | ⟨_, rfl⟩
    · exact .inl hOld
    · exact .inr hv

/-- A handle that was known is still known. -/
theorem definition_kept (h : r.Grows P r') {handle : Nat} {d : Definition τ ρ}
    (hDefinition : r.definition? handle = some d) : ∃ d', r'.definition? handle = some d' := by
  have hLength : r.definitions.length ≤ r'.definitions.length := by
    have hPlaces := h.places.length_le
    rwa [Registry.places, Registry.places, List.length_map, List.length_map] at hPlaces
  have hHandle := (List.getElem?_eq_some_iff.mp hDefinition).1
  exact ⟨_, List.getElem?_eq_getElem (Nat.lt_of_lt_of_le hHandle hLength)⟩

end Grows

/-! ## Forcing -/

section
variable {σ : Type} {part : Part σ (Registry τ ρ)} {build : τ → StateT σ Option ρ} {handle : Nat} {r : ρ} {s s' : σ}

/-- What is forced has its value already, or is built now and settled. -/
theorem force_cases (h : (force part build handle).run s = some (some r, s')) :
    ∃ d, (part.get s).definition? handle = some d ∧ (d.value = some r ∧ s' = s ∨
      d.value = none ∧ ∃ t, (build d.thunk).run (part.modify (beginRun handle) s) = some (r, t) ∧
        s' = part.modify (settle handle r) t) := by
  cases hDefinition : (part.get s).definition? handle with
  | none =>
    simp only [force, StateT.run_bind, StateT.run_get, pure_bind, hDefinition] at h
    cases h
  | some d =>
    refine ⟨d, rfl, ?_⟩
    cases hValue : d.value with
    | some v =>
      rw [force_kept hDefinition hValue] at h
      cases h
      exact .inl ⟨rfl, rfl⟩
    | none =>
      rw [force_run hDefinition hValue] at h
      obtain ⟨⟨v, t⟩, hBuild, hEnd⟩ := Option.map_eq_some_iff.mp h
      cases hEnd
      exact .inr ⟨rfl, t, hBuild, rfl⟩

theorem settled?_settle_open {r r' : Registry τ ρ} {d : Definition τ ρ} {v : ρ} (hGrows : r.Grows (fun _ => False) r')
    (hDefinition : r.definition? handle = some d) (hOpen : d.value = none) :
    (r'.settle handle v).settled? handle = some v := by
  obtain ⟨d', hDefinition'⟩ := hGrows.definition_kept hDefinition
  refine settled?_settle_self hDefinition' ?_ v
  cases hValue : d'.value with
  | none => rfl
  | some v' =>
    have hOld := (hGrows.fresh ((settled?_of_definition hDefinition').trans hValue)).resolve_right fun h => h
    rw [settled?_of_definition hDefinition, hOpen] at hOld
    cases hOld

end

end JsonShapes.Registry
