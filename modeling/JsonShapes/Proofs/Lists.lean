import Mathlib.Data.List.Forall2

/-! # Lists side by side

What relates two lists item by item, beyond what is known of `List.Forall₂`: where the items stand, what they
are a part of, and how such relations are put together.
-/
namespace JsonShapes
set_option autoImplicit false

theorem map_map_eq_of_map_eq {τ τ' υ υ' φ φ' : Type} {xs : List τ} {ys : List υ} {f : τ → φ} {g : υ → φ}
    (h : xs.map f = ys.map g) (onto : φ → φ') {f' : τ' → φ'} {g' : υ' → φ'} {u : τ → τ'} {v : υ → υ'}
    (hLeft : f' ∘ u = onto ∘ f) (hRight : g' ∘ v = onto ∘ g) : (xs.map u).map f' = (ys.map v).map g' := by
  rw [List.map_map, List.map_map, hLeft, hRight, ← List.map_map, ← List.map_map, h]

theorem zipWith_replicate_left {τ υ φ : Type} (f : τ → υ → φ) (x : τ) (ys : List υ) :
    List.zipWith f (List.replicate ys.length x) ys = ys.map (f x) := by
  induction ys with
  | nil => rfl
  | cons y ys ih => rw [List.length_cons, List.replicate_succ, List.zipWith_cons_cons, ih, List.map_cons]

theorem forall₂_map {τ υ φ : Type} {R : υ → φ → Prop} {xs : List τ} {f : τ → υ} {g : τ → φ}
    (h : ∀ x ∈ xs, R (f x) (g x)) : List.Forall₂ R (xs.map f) (xs.map g) := by
  rw [List.forall₂_map_left_iff, List.forall₂_map_right_iff]
  exact List.forall₂_same.mpr h

theorem forall₂_imp_of_mem {τ υ : Type} {R S : τ → υ → Prop} {xs : List τ} {ys : List υ}
    (h : List.Forall₂ R xs ys) (hImp : ∀ x ∈ xs, ∀ y, R x y → S x y) : List.Forall₂ S xs ys :=
  ((List.forall₂_and_left xs ys).mpr ⟨fun _ hx => hx, h⟩).imp fun x y hxy => hImp x hxy.1 y hxy.2

theorem forall₂_trans {τ υ φ : Type} {R : τ → υ → Prop} {S : υ → φ → Prop} {T : τ → φ → Prop}
    (hTrans : ∀ x y z, R x y → S y z → T x z) {xs : List τ} {ys : List υ} {zs : List φ}
    (h : List.Forall₂ R xs ys) (h' : List.Forall₂ S ys zs) : List.Forall₂ T xs zs := by
  induction h generalizing zs with
  | nil =>
    cases h'
    exact .nil
  | cons hHead _ ih =>
    cases h' with
    | cons hHead' hRest' => exact .cons (hTrans _ _ _ hHead hHead') (ih hRest')

theorem forall₂_mem_left {τ υ : Type} {R : τ → υ → Prop} {xs : List τ} {ys : List υ}
    (h : List.Forall₂ R xs ys) {x : τ} (hx : x ∈ xs) : ∃ y ∈ ys, R x y := by
  induction h with
  | nil => cases hx
  | cons hHead _ ih =>
    rcases List.mem_cons.mp hx with rfl | hx
    · exact ⟨_, List.mem_cons_self, hHead⟩
    · obtain ⟨y, hy, hxy⟩ := ih hx
      exact ⟨y, List.mem_cons_of_mem _ hy, hxy⟩

theorem forall₂_mem_right {τ υ : Type} {R : τ → υ → Prop} {xs : List τ} {ys : List υ}
    (h : List.Forall₂ R xs ys) {y : υ} (hy : y ∈ ys) : ∃ x ∈ xs, R x y := forall₂_mem_left h.flip hy

theorem exists_forall₂ {τ υ : Type} {R : τ → υ → Prop} {xs : List τ} (h : ∀ x ∈ xs, ∃ y, R x y) :
    ∃ ys, List.Forall₂ R xs ys := by
  induction xs with
  | nil => exact ⟨[], .nil⟩
  | cons x rest ih =>
    obtain ⟨⟨y, hy⟩, hRest⟩ := List.forall_mem_cons.mp h
    obtain ⟨ys, hys⟩ := ih hRest
    exact ⟨y :: ys, .cons hy hys⟩

theorem forall₂_split {τ υ : Type} {R : τ → υ → Prop} {before after : List τ} {x : τ} {ys : List υ}
    (h : List.Forall₂ R (before ++ x :: after) ys) : ∃ before' y after', ys = before' ++ y :: after' ∧
      List.Forall₂ R before before' ∧ R x y := by
  induction before generalizing ys with
  | nil =>
    cases h with
    | cons hHead _ => exact ⟨[], _, _, rfl, .nil, hHead⟩
  | cons b rest ih =>
    cases h with
    | cons hHead hRest =>
      obtain ⟨before', y, after', rfl, hBefore, hxy⟩ := ih hRest
      exact ⟨_ :: before', y, after', rfl, .cons hHead hBefore, hxy⟩

theorem forall₂_zip {τ υ φ : Type} {R : τ → υ → Prop} {xs : List τ} {ys : List υ}
    (h : List.Forall₂ R xs ys) (zs : List φ) :
    List.Forall₂ (fun x y => x.1 = y.1 ∧ R x.2 y.2) (zs.zip xs) (zs.zip ys) := by
  induction h generalizing zs with
  | nil => rw [List.zip_nil_right, List.zip_nil_right]; exact .nil
  | cons hHead _ ih =>
    cases zs with
    | nil => exact .nil
    | cons z zs => exact .cons ⟨rfl, hHead⟩ (ih zs)

/-- What is made of pairs stands beside the right halves that it was made with. -/
theorem forall₂_zip_mem {τ υ φ : Type} {R : τ × υ → φ → Prop} {xs : List τ} {ys : List υ} {zs : List φ}
    (h : List.Forall₂ R (xs.zip ys) zs) {p : φ × υ} (hp : p ∈ zs.zip ys) :
    ∃ x ∈ xs, p.2 ∈ ys ∧ R (x, p.2) p.1 := by
  induction xs generalizing ys zs with
  | nil =>
    cases h
    cases hp
  | cons x xs ih =>
    cases ys with
    | nil =>
      rw [List.zip_nil_right] at hp
      cases hp
    | cons y ys =>
      cases h with
      | cons hHead hRest =>
        rcases List.mem_cons.mp hp with rfl | hp
        · exact ⟨x, List.mem_cons_self, List.mem_cons_self, hHead⟩
        · obtain ⟨x', hx', hy', hR⟩ := ih hRest hp
          exact ⟨x', List.mem_cons_of_mem _ hx', List.mem_cons_of_mem _ hy', hR⟩

theorem forall₂_zipIdx {τ υ : Type} {R : τ → υ → Prop} {xs : List τ} {ys : List υ}
    (h : List.Forall₂ R xs ys) (start : Nat) :
    List.Forall₂ (fun x y => x.2 = y.2 ∧ R x.1 y.1) (xs.zipIdx start) (ys.zipIdx start) := by
  induction h generalizing start with
  | nil => exact .nil
  | cons hHead _ ih => exact .cons ⟨rfl, hHead⟩ (ih (start + 1))

theorem forall₂_zipIdx_self {τ : Type} (xs : List τ) (start : Nat) :
    List.Forall₂ (fun x y => x.1 = y) (xs.zipIdx start) xs := by
  induction xs generalizing start with
  | nil => exact .nil
  | cons _ _ ih => exact .cons rfl (ih (start + 1))

theorem forall₂_getElem?_iff {τ α : Type} {R : τ → α → Prop} {xs : List τ} {ys : List α} :
    List.Forall₂ R xs ys ↔
      xs.length = ys.length ∧ ∀ (i : Nat) x y, xs[i]? = some x → ys[i]? = some y → R x y := by
  constructor
  · intro h
    obtain ⟨hLength, hAt⟩ := List.forall₂_iff_get.mp h
    refine ⟨hLength, ?_⟩
    intro i x y hx hy
    obtain ⟨hi, rfl⟩ := List.getElem?_eq_some_iff.mp hx
    obtain ⟨hi', rfl⟩ := List.getElem?_eq_some_iff.mp hy
    exact hAt i hi hi'
  · rintro ⟨hLength, hAt⟩
    apply List.forall₂_iff_get.mpr
    refine ⟨hLength, ?_⟩
    intro i hi hi'
    exact hAt i _ _ (List.getElem?_eq_getElem hi) (List.getElem?_eq_getElem hi')

theorem forall₂_zipIdx_iff {τ α : Type} {R : Nat → τ → α → Prop} {xs : List τ} {ys : List α} :
    List.Forall₂ (fun x y => R x.2 x.1 y) xs.zipIdx ys ↔
      xs.length = ys.length ∧ ∀ i x y, xs[i]? = some x → ys[i]? = some y → R i x y := by
  rw [forall₂_getElem?_iff, List.length_zipIdx]
  apply and_congr_right
  intro _
  simp only [List.getElem?_zipIdx, Nat.zero_add, Option.map_eq_some_iff]
  constructor
  · intro h i x y hx hy
    exact h i (x, i) y ⟨x, hx, rfl⟩ hy
  · rintro h i _ y ⟨x, hx, rfl⟩ hy
    exact h i x y hx hy

end JsonShapes
