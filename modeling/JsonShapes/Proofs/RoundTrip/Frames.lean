import JsonShapes.Proofs.Successes

/-! # Shapes that keep to their own names

What is declared property by property looks at the declared names alone and gives nothing under any other
name. Two shapes that keep to different names do not disturb each other: each of them finds in a merged object
what it would find in its own part.
-/
namespace JsonShapes
set_option autoImplicit false

/-- `E` and `F` have the same under the names in `K`. -/
def Entries.AgreeOn (K : String → Prop) (E F : Entries Value) : Prop := ∀ k, K k → E.get? k = F.get? k

namespace Entries
variable {K L : String → Prop} {E F A B : Entries Value}

theorem AgreeOn.mono (h : AgreeOn K E F) (hLess : ∀ k, L k → K k) : AgreeOn L E F := fun k hk => h k (hLess k hk)

theorem readings_eq_of_agreeOn {α β : Type} (f : α → Value → β) {props : Entries α}
    (h : AgreeOn (· ∈ props.keys) E F) : (props.map fun p => (p.1, f p.2 ((E.get? p.1).getD .null))) =
      props.map fun p => (p.1, f p.2 ((F.get? p.1).getD .null)) := by
  apply List.map_congr_left
  intro p hp
  rw [h p.1 (List.mem_map_of_mem hp)]

theorem present_eq_of_agreeOn {α β : Type} {f : α → Value → β} {props : Entries α}
    (h : AgreeOn (· ∈ props.keys) E F) : present E f props = present F f props := by
  apply List.filterMap_congr
  intro p hp
  rw [h p.1 (List.mem_map_of_mem hp)]

theorem present_cons_of_none {α β : Type} {f : α → Value → β} {p : String × α} (props : Entries α)
    (h : E.get? p.1 = none) : present E f (p :: props) = present E f props :=
  List.filterMap_cons_none (by rw [h]; rfl)

theorem present_cons_of_some {α β : Type} {f : α → Value → β} {p : String × α} (props : Entries α) {raw : Value}
    (h : E.get? p.1 = some raw) : present E f (p :: props) = (p.1, f p.2 raw) :: present E f props :=
  List.filterMap_cons_some (by rw [h]; rfl)

/-- An entry that is not asked for does not matter. -/
theorem present_of_cons {α β : Type} {f : α → Value → β} {props : Entries α} {k : String} (hk : k ∉ props.keys)
    (raw : Value) : present ((k, raw) :: E) f props = present E f props := by
  apply present_eq_of_agreeOn
  intro name hName
  rw [get?_cons, if_neg]
  rintro rfl
  exact hk hName

theorem nodup_keys_present {α β : Type} {f : α → Value → β} {props : Entries α} (h : props.keys.Nodup) :
    (present E f props).keys.Nodup := by
  induction props with
  | nil => exact List.nodup_nil
  | cons p rest ih =>
    obtain ⟨hNew, hRest⟩ := List.nodup_cons.mp h
    cases hFound : E.get? p.1 with
    | none =>
      rw [present_cons_of_none rest hFound]
      exact ih hRest
    | some raw =>
      rw [present_cons_of_some rest hFound]
      refine List.nodup_cons.mpr ⟨fun hMem => hNew ?_, ih hRest⟩
      exact (mem_keys_present.mp hMem).2

/-- Where every name is there, none is read as null. -/
theorem readings_eq_present {α β : Type} (f : α → Value → β) {props : Entries α}
    (h : ∀ k ∈ props.keys, k ∈ E.keys) : (props.map fun p => (p.1, f p.2 ((E.get? p.1).getD .null))) =
      present E f props := by
  have hEach : ∀ p ∈ props, ((E.get? p.1).map fun raw => (p.1, f p.2 raw)) =
      some (p.1, f p.2 ((E.get? p.1).getD .null)) := by
    intro p hp
    obtain ⟨raw, hRaw⟩ := mem_keys_iff.mp (h p.1 (List.mem_map_of_mem hp))
    rw [hRaw]
    rfl
  rw [present, List.filterMap_congr hEach]
  exact (congrFun List.filterMap_eq_map' props).symm

/-- Each part is found again in what was merged from parts with different names. -/
theorem agreeOn_merge (hApart : ∀ k, K k → ¬L k) (hA : ∀ k ∈ A.keys, K k) (hB : ∀ k ∈ B.keys, L k)
    (hNodup : B.keys.Nodup) : AgreeOn K A (A.merge B) ∧ AgreeOn L B (A.merge B) := by
  constructor
  · intro k hk
    have hNone : B.get? k = none := get?_eq_none_iff.mpr fun hMem => hApart k hk (hB k hMem)
    rw [get?_merge hNodup, hNone, Option.none_or]
  · intro k hk
    have hNone : A.get? k = none := get?_eq_none_iff.mpr fun hMem => hApart k (hA k hMem) hk
    rw [get?_merge hNodup, hNone, Option.or_none]

end Entries

/-- The check accepts objects only, it sees what they have under the names in `K` and gives nothing else. -/
structure Check.Confined (K : String → Prop) (check : Check Option) : Prop where
  entries : ∀ {v w}, check v = some (.ok w) → ∃ E A : Entries Value, v = .obj E ∧ w = .obj A ∧
    A.keys.Nodup ∧ ∀ k ∈ A.keys, K k
  frame : ∀ {E F : Entries Value} {w}, Entries.AgreeOn K E F → check (.obj E) = some (.ok w) →
    check (.obj F) = some (.ok w)

/-- The transform gives objects only, it sees what an object has under the names in `K` and gives nothing else. -/
structure Transform.Confined (K : String → Prop) (transform : Transform Option) : Prop where
  entries : ∀ {v w}, transform v = some w → ∃ A : Entries Value, w = .obj A ∧ A.keys.Nodup ∧ ∀ k ∈ A.keys, K k
  frame : ∀ {E F : Entries Value} {w}, Entries.AgreeOn K E F → transform (.obj E) = some w →
    transform (.obj F) = some w

namespace Check.Confined
variable {K L : String → Prop} {check left right : Check Option}

theorem mono (h : check.Confined K) (hMore : ∀ k, K k → L k) : check.Confined L where
  entries hRun := by
    obtain ⟨E, A, hv, hw, hNodup, hKeys⟩ := h.entries hRun
    exact ⟨E, A, hv, hw, hNodup, fun k hk => hMore k (hKeys k hk)⟩
  frame hAgree := h.frame (hAgree.mono hMore)

theorem object (props : Entries (Check Option)) : Confined (· ∈ props.keys) (Check.object props) where
  entries h := by
    obtain ⟨E, fields, rfl, _, rfl⟩ := object_eq_ok_iff.mp h
    have hFields := object_corresponds h
    refine ⟨E, _, rfl, rfl, hFields.nodup, fun k hk => ?_⟩
    exact Entries.mem_keys_ofList.mp (hFields.mem_keys_iff.mp hk)
  frame {E F w} hAgree h := by
    obtain ⟨_, fields, hE, hEach, hw⟩ := object_eq_ok_iff.mp h
    cases hE
    refine object_eq_ok_iff.mpr ⟨F, fields, rfl, ?_, hw⟩
    rw [← Entries.readings_eq_of_agreeOn (fun c => c) hAgree]
    exact hEach

theorem partialObject (props : Entries (Check Option)) :
    Confined (· ∈ props.keys) (Check.partialObject props) where
  entries h := by
    obtain ⟨E, fields, rfl, _, rfl⟩ := partialObject_eq_ok_iff.mp h
    have hFields := partialObject_corresponds h
    refine ⟨E, _, rfl, rfl, hFields.nodup, fun k hk => ?_⟩
    exact Entries.mem_keys_ofList.mp (Entries.mem_keys_present.mp (hFields.mem_keys_iff.mp hk)).2
  frame {E F w} hAgree h := by
    obtain ⟨_, fields, hE, hEach, hw⟩ := partialObject_eq_ok_iff.mp h
    cases hE
    refine partialObject_eq_ok_iff.mpr ⟨F, fields, rfl, ?_, hw⟩
    rw [← Entries.present_eq_of_agreeOn hAgree]
    exact hEach

theorem inter (hLeft : Confined K left) (hRight : Confined L right) :
    Confined (fun k => K k ∨ L k) (Check.inter left right) where
  entries h := by
    obtain ⟨_, _, hA, hB, rfl⟩ := inter_eq_ok_iff.mp h
    obtain ⟨E, A, rfl, rfl, hNodup, hKeys⟩ := hLeft.entries hA
    obtain ⟨_, B, _, rfl, hNodup', hKeys'⟩ := hRight.entries hB
    refine ⟨E, _, rfl, rfl, Entries.nodup_keys_merge hNodup B, fun k hk => ?_⟩
    exact ((Entries.mem_keys_merge hNodup').mp hk).imp (hKeys k) (hKeys' k)
  frame hAgree h := by
    obtain ⟨a, b, hA, hB, rfl⟩ := inter_eq_ok_iff.mp h
    exact inter_eq_ok_iff.mpr ⟨a, b, hLeft.frame (hAgree.mono fun _ => .inl) hA,
      hRight.frame (hAgree.mono fun _ => .inr) hB, rfl⟩

theorem lazy (id : String) (h : check.Confined K) : Confined K (Check.lazy id check) where
  entries hRun := h.entries (lazy_eq_ok_iff.mp hRun)
  frame hAgree hRun := lazy_eq_ok_iff.mpr (h.frame hAgree (lazy_eq_ok_iff.mp hRun))

end Check.Confined

namespace Transform.Confined
variable {K L : String → Prop} {transform left right : Transform Option}

theorem mono (h : transform.Confined K) (hMore : ∀ k, K k → L k) : transform.Confined L where
  entries hRun := by
    obtain ⟨A, hw, hNodup, hKeys⟩ := h.entries hRun
    exact ⟨A, hw, hNodup, fun k hk => hMore k (hKeys k hk)⟩
  frame hAgree := h.frame (hAgree.mono hMore)

theorem object (props : Entries (Transform Option)) : Confined (· ∈ props.keys) (Transform.object props) where
  entries {v w} h := by
    have h : Transform.object props (.obj v.entries) = some w := h
    obtain ⟨fields, rfl, hFields⟩ := object_corresponds h
    refine ⟨fields, rfl, hFields.nodup, fun k hk => ?_⟩
    exact Entries.mem_keys_ofList.mp (hFields.mem_keys_iff.mp hk)
  frame {E F w} hAgree h := by
    obtain ⟨fields, hEach, hw⟩ := object_eq_some_iff.mp h
    refine object_eq_some_iff.mpr ⟨fields, ?_, hw⟩
    rw [Value.entries, ← Entries.readings_eq_of_agreeOn (fun t => t) hAgree]
    exact hEach

theorem partialObject (props : Entries (Transform Option)) :
    Confined (· ∈ props.keys) (Transform.partialObject props) where
  entries {v w} h := by
    have h : Transform.partialObject props (.obj v.entries) = some w := h
    obtain ⟨fields, rfl, hFields⟩ := partialObject_corresponds h
    refine ⟨fields, rfl, hFields.nodup, fun k hk => ?_⟩
    exact Entries.mem_keys_ofList.mp (Entries.mem_keys_present.mp (hFields.mem_keys_iff.mp hk)).2
  frame {E F w} hAgree h := by
    obtain ⟨fields, hEach, hw⟩ := partialObject_eq_some_iff.mp h
    refine partialObject_eq_some_iff.mpr ⟨fields, ?_, hw⟩
    rw [Value.entries, ← Entries.present_eq_of_agreeOn hAgree]
    exact hEach

theorem inter (hLeft : Confined K left) (hRight : Confined L right) :
    Confined (fun k => K k ∨ L k) (Transform.inter left right) where
  entries h := by
    obtain ⟨_, _, hA, hB, rfl⟩ := inter_eq_some_iff.mp h
    obtain ⟨A, rfl, hNodup, hKeys⟩ := hLeft.entries hA
    obtain ⟨B, rfl, hNodup', hKeys'⟩ := hRight.entries hB
    refine ⟨_, rfl, Entries.nodup_keys_merge hNodup B, fun k hk => ?_⟩
    exact ((Entries.mem_keys_merge hNodup').mp hk).imp (hKeys k) (hKeys' k)
  frame hAgree h := by
    obtain ⟨a, b, hA, hB, rfl⟩ := inter_eq_some_iff.mp h
    exact inter_eq_some_iff.mpr ⟨a, b, hLeft.frame (hAgree.mono fun _ => .inl) hA,
      hRight.frame (hAgree.mono fun _ => .inr) hB, rfl⟩

end Transform.Confined

end JsonShapes
