import JsonShapes.Proofs.Parts
import JsonShapes.Proofs.Projection

/-! # Values whose numbers are finite

JSON has no infinities and no NaN. A value whose numbers are all finite is equal to itself, which fails for
NaN, and so are its projections. Objects are equal when they hold equal values under the same names, so it
is enough to compare what is found under each name.
-/
namespace JsonShapes
set_option autoImplicit false

theorem float_beq_self {x : Float} (h : x.isFinite = true) : (x == x) = true := by
  have hModel : x.toModel.unpack.isFinite = true := h
  change (x.toModel.unpack.compare x.toModel.unpack == some .eq) = true
  cases hUnpacked : x.toModel.unpack with
  | infinity sign =>
    rw [hUnpacked] at hModel
    cases hModel
  | notANumber =>
    rw [hUnpacked] at hModel
    cases hModel
  | zero sign => rfl
  | finite sign mantissa exponent hPositive =>
    have hExponent : compare exponent exponent = .eq := Std.ReflCmp.compare_self
    have hMantissa : compare mantissa mantissa = .eq := Std.ReflCmp.compare_self
    have hOrder : (compare exponent exponent).then (compare mantissa mantissa) = .eq := by
      rw [hExponent, hMantissa]
      rfl
    cases sign with
    | negative =>
      change (some ((compare exponent exponent).then (compare mantissa mantissa)).swap == some .eq) = true
      rw [hOrder]
      rfl
    | positive =>
      change (some ((compare exponent exponent).then (compare mantissa mantissa)) == some .eq) = true
      rw [hOrder]
      rfl

def Number.Finite (n : Number) : Prop := n.toFloat.isFinite = true

theorem Number.Finite.beq_self {n : Number} (h : n.Finite) : (n == n) = true := by
  cases n with
  | int n => exact beq_self_eq_true n
  | float x => exact float_beq_self h

namespace Value

/-- Every number in the value is finite. -/
inductive Finite : Value → Prop
  | of {v : Value} : (∀ n, v = .num n → n.Finite) → (∀ w ∈ v.parts, Finite w) → Finite v

namespace Finite
variable {v w : Value}

theorem number {n : Number} (h : (Value.num n).Finite) : n.Finite := by
  cases h with
  | of hNumber _ => exact hNumber n rfl

theorem part (h : v.Finite) (hw : w ∈ v.parts) : w.Finite := by
  cases h with
  | of _ hParts => exact hParts w hw

theorem null : Value.null.Finite := .of (fun _ hn => nomatch hn) (List.forall_mem_nil _)

theorem property {entries : List (String × Value)} (h : (Value.obj entries).Finite) (name : String) :
    ((Entries.get? entries name).getD .null).Finite := by
  cases hFound : Entries.get? entries name with
  | none => exact null
  | some raw => exact h.part (mem_parts_of_get? hFound)

theorem element {items : List Value} (h : (Value.arr items).Finite) (position : Nat) :
    (items[position]?.getD .null).Finite := by
  cases hFound : items[position]? with
  | none => exact null
  | some raw => exact h.part (List.mem_of_getElem? hFound)

theorem projection (hw : w.ProjectionOf v) (h : v.Finite) : w.Finite := by
  induction hw with
  | null | bool _ | num _ | str _ => exact h
  | arr _ _ ih =>
    refine .of (fun _ hn => nomatch hn) fun x hx => ?_
    obtain ⟨i, hi⟩ := List.mem_iff_getElem?.mp hx
    exact ih i x hi (h.element i)
  | obj _ ih =>
    refine .of (fun _ hn => nomatch hn) fun x hx => ?_
    obtain ⟨e, he, rfl⟩ := List.mem_map.mp hx
    exact ih e he (h.property e.1)

end Finite

@[simp] theorem finite_null : null.Finite := .null

@[simp] theorem finite_bool (b : Bool) : (bool b).Finite := .of nofun (List.forall_mem_nil _)

@[simp] theorem finite_str (s : String) : (str s).Finite := .of nofun (List.forall_mem_nil _)

@[simp] theorem finite_num {n : Number} : (num n).Finite ↔ n.Finite := by
  refine ⟨fun h => h.number, fun h => .of (fun m hm => ?_) (List.forall_mem_nil _)⟩
  cases hm
  exact h

@[simp] theorem finite_arr {items : List Value} : (arr items).Finite ↔ ∀ w ∈ items, w.Finite :=
  ⟨fun h _ hw => h.part hw, fun h => .of nofun h⟩

@[simp] theorem finite_obj {entries : List (String × Value)} :
    (obj entries).Finite ↔ ∀ e ∈ entries, e.2.Finite :=
  ⟨fun h _ he => h.part (List.mem_map_of_mem he), fun h => .of nofun (List.forall_mem_map.mpr h)⟩

/-! ## Equality -/

theorem beqItems_iff {xs ys : List Value} :
    beqItems xs ys = true ↔ List.Forall₂ (fun x y => (x == y) = true) xs ys := by
  induction xs generalizing ys with
  | nil => cases ys <;> simp [beqItems]
  | cons x rest ih =>
    cases ys with
    | nil => simp [beqItems]
    | cons y ys =>
      rw [beqItems, Bool.and_eq_true, ih, List.forall₂_cons]
      exact Iff.rfl

theorem beqEntries_iff {xs ys : List (String × Value)} :
    beqEntries xs ys = true ↔ ∀ e ∈ xs, ∃ w, Entries.get? ys e.1 = some w ∧ (e.2 == w) = true := by
  induction xs with
  | nil => simp [beqEntries]
  | cons e rest ih =>
    rw [beqEntries, Bool.and_eq_true, ih, List.forall_mem_cons]
    apply and_congr_left
    intro _
    cases Entries.get? ys e.1 with
    | none => simp
    | some w =>
      simp only [Option.some.injEq, exists_eq_left']
      exact Iff.rfl

theorem arr_beq {xs ys : List Value} (h : List.Forall₂ (fun x y => (x == y) = true) xs ys) :
    (arr xs == arr ys) = true := beqItems_iff.mpr h

/-- Objects that have the same names, and under each name equal values. -/
theorem obj_beq {xs ys : List (String × Value)} (hLeft : (Entries.keys xs).Nodup)
    (hRight : (Entries.keys ys).Nodup) (hKeys : ∀ k, k ∈ Entries.keys xs ↔ k ∈ Entries.keys ys)
    (hEach : ∀ k x y, Entries.get? xs k = some x → Entries.get? ys k = some y → (x == y) = true) :
    (obj xs == obj ys) = true := by
  have hPerm := (List.perm_ext_iff_of_nodup hLeft hRight).mpr hKeys
  have hLength : xs.length = ys.length := by simpa [Entries.keys] using hPerm.length_eq
  change (xs.length == ys.length && beqEntries xs ys) = true
  rw [hLength, beq_self_eq_true, Bool.true_and, beqEntries_iff]
  intro e he
  obtain ⟨y, hy⟩ := Entries.mem_keys_iff.mp ((hKeys e.1).mp (List.mem_map_of_mem he))
  exact ⟨y, hy, hEach e.1 e.2 y (Entries.get?_of_mem hLeft he) hy⟩

theorem beq_kind {x y : Value} (h : (x == y) = true) : x.kind = y.kind := by
  cases x <;> cases y <;> first | rfl | cases h

theorem Finite.beq_self {v : Value} (h : v.Finite) (hKeys : v.WellKeyed) : (v == v) = true := by
  induction v using parts_induction with
  | step v ih =>
    cases v with
    | null => rfl
    | bool b => exact beq_self_eq_true b
    | num n => exact h.number.beq_self
    | str s => exact beq_self_eq_true s
    | arr items =>
      apply arr_beq
      apply List.forall₂_same.mpr
      intro x hx
      exact ih x hx (h.part hx) (WellKeyedItems.mem hKeys x hx)
    | obj entries =>
      refine obj_beq hKeys.1 hKeys.1 (fun _ => Iff.rfl) fun k x y hx hy => ?_
      cases hx.symm.trans hy
      have hMem := Entries.mem_of_get? hx
      exact ih x (List.mem_map_of_mem hMem) (h.part (List.mem_map_of_mem hMem)) (hKeys.2.mem _ hMem)

end Value
end JsonShapes
