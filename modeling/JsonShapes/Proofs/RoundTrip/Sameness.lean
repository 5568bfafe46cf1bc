import JsonShapes.Proofs.Finite

/-! # Values that differ in order only

Merging puts the names of the left operand first, so an object that is decoded, merged and decoded again may
come back with its entries in another order. Sameness looks past the order of entries at every depth. Unlike
equality it compares numbers as they are written, so it is kept by everything that only moves values about.
-/
namespace JsonShapes.Value
set_option autoImplicit false

inductive Same : Value → Value → Prop
  | refl (v : Value) : Same v v
  | arr {xs ys : List Value} : xs.length = ys.length →
    (∀ (i : Nat) x y, xs[i]? = some x → ys[i]? = some y → Same x y) → Same (.arr xs) (.arr ys)
  | obj {xs ys : List (String × Value)} : (∀ k, k ∈ Entries.keys xs ↔ k ∈ Entries.keys ys) →
    (∀ k x y, Entries.get? xs k = some x → Entries.get? ys k = some y → Same x y) → Same (.obj xs) (.obj ys)

namespace Same
variable {u v w : Value}

theorem kind_eq (h : v.Same w) : v.kind = w.kind := by cases h <;> rfl

theorem elements {xs ys : List Value} (h : (Value.arr xs).Same (.arr ys)) : xs.length = ys.length ∧
    ∀ (i : Nat) x y, xs[i]? = some x → ys[i]? = some y → x.Same y := by
  cases h with
  | refl =>
    refine ⟨rfl, fun i x y hx hy => ?_⟩
    cases hx.symm.trans hy
    exact .refl x
  | arr hLength hEach => exact ⟨hLength, hEach⟩

theorem properties {xs ys : List (String × Value)} (h : (Value.obj xs).Same (.obj ys)) :
    (∀ k, k ∈ Entries.keys xs ↔ k ∈ Entries.keys ys) ∧
      ∀ k x y, Entries.get? xs k = some x → Entries.get? ys k = some y → x.Same y := by
  cases h with
  | refl =>
    refine ⟨fun _ => Iff.rfl, fun k x y hx hy => ?_⟩
    cases hx.symm.trans hy
    exact .refl x
  | obj hKeys hEach => exact ⟨hKeys, hEach⟩

theorem trans (h : u.Same v) (h' : v.Same w) : u.Same w := by
  induction h generalizing w with
  | refl => exact h'
  | @arr xs ys hLength _ ih =>
    cases h' with
    | refl => exact .arr hLength fun i x y hx hy => ih i x y hx hy (.refl y)
    | @arr _ zs hLength' hEach' =>
      refine .arr (hLength.trans hLength') fun i x z hx hz => ?_
      have hi : i < ys.length := hLength' ▸ (List.getElem?_eq_some_iff.mp hz).1
      have hy := List.getElem?_eq_getElem hi
      exact ih i x _ hx hy (hEach' i _ z hy hz)
  | @obj xs ys hKeys _ ih =>
    cases h' with
    | refl => exact .obj hKeys fun k x y hx hy => ih k x y hx hy (.refl y)
    | @obj _ zs hKeys' hEach' =>
      refine .obj (fun k => (hKeys k).trans (hKeys' k)) fun k x z hx hz => ?_
      obtain ⟨y, hy⟩ := Entries.mem_keys_iff.mp ((hKeys k).mp (Entries.mem_keys_iff.mpr ⟨x, hx⟩))
      exact ih k x y hx hy (hEach' k y z hy hz)

/-- The names of the two need not come in one order for the right one to win. -/
theorem merge {a b c d : Value} (hLeft : a.Same c) (hRight : b.Same d) (hb : b.WellKeyed) (hd : d.WellKeyed) :
    (a.merge b).Same (c.merge d) := by
  by_cases hOther : a.kind ≠ .object ∨ b.kind ≠ .object
  · have hOther' : c.kind ≠ .object ∨ d.kind ≠ .object := hLeft.kind_eq ▸ hRight.kind_eq ▸ hOther
    rw [merge_eq_right hOther, merge_eq_right hOther']
    exact hRight
  · obtain ⟨ha, hb'⟩ := not_or.mp hOther
    obtain ⟨A, rfl⟩ := exists_entries_of_kind (not_not.mp ha)
    obtain ⟨B, rfl⟩ := exists_entries_of_kind (not_not.mp hb')
    obtain ⟨C, rfl⟩ := exists_entries_of_kind hLeft.kind_eq.symm
    obtain ⟨D, rfl⟩ := exists_entries_of_kind hRight.kind_eq.symm
    obtain ⟨hKeys, hEach⟩ := hLeft.properties
    obtain ⟨hKeys', hEach'⟩ := hRight.properties
    refine .obj (fun k => ?_) fun k x y hx hy => ?_
    · rw [Entries.mem_keys_merge hb.1, Entries.mem_keys_merge hd.1, hKeys, hKeys']
    · rw [Entries.get?_merge hb.1] at hx
      rw [Entries.get?_merge hd.1] at hy
      rcases Option.or_eq_some_iff.mp hx with hx | ⟨hNone, hx⟩
      · obtain ⟨z, hz⟩ := Entries.mem_keys_iff.mp ((hKeys' k).mp (Entries.mem_keys_iff.mpr ⟨x, hx⟩))
        rw [hz, Option.some_or, Option.some.injEq] at hy
        exact hy ▸ hEach' k x z hx hz
      · have hNone' : Entries.get? D k = none := by
          rw [Entries.get?_eq_none_iff, ← hKeys', ← Entries.get?_eq_none_iff]
          exact hNone
        rw [hNone', Option.none_or] at hy
        exact hEach k x y hx hy

theorem beq (h : v.Same w) (hv : v.WellKeyed) (hw : w.WellKeyed) (hFinite : w.Finite) : (v == w) = true := by
  induction h with
  | refl => exact hFinite.beq_self hw
  | arr hLength _ ih =>
    apply arr_beq
    apply forall₂_getElem?_iff.mpr
    refine ⟨hLength, fun i x y hx hy => ?_⟩
    have hx' := List.mem_of_getElem? hx
    have hy' := List.mem_of_getElem? hy
    exact ih i x y hx hy (WellKeyedItems.mem hv x hx') (WellKeyedItems.mem hw y hy') (hFinite.part hy')
  | obj hKeys _ ih =>
    refine obj_beq hv.1 hw.1 hKeys fun k x y hx hy => ?_
    have hx' := Entries.mem_of_get? hx
    have hy' := Entries.mem_of_get? hy
    exact ih k x y hx hy (hv.2.mem _ hx') (hw.2.mem _ hy') (hFinite.part (List.mem_map_of_mem hy'))

end Same

end JsonShapes.Value
