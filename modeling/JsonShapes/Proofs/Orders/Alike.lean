import JsonShapes.Proofs.Lists
import JsonShapes.Proofs.RoundTrip.Sameness
import JsonShapes.Value.Predicates
import Mathlib.Data.List.Nodup

/-! # Values in another order

Two values are alike if each can be had from the other by permuting the entries of objects, at any depth. Alike
values have the same properties under the same names, equal the same literals, and differ only where there is
an object in them.
-/
namespace JsonShapes
set_option autoImplicit false

namespace Entries
variable {α : Type}

theorem keys_perm {as bs : Entries α} (h : as.Perm bs) : as.keys.Perm bs.keys := h.map Prod.fst

theorem nodup_of_keys {entries : Entries α} (h : entries.keys.Nodup) : entries.Nodup := .of_map Prod.fst h

end Entries

namespace Value

structure Alike (v w : Value) : Prop where
  left : v.WellKeyed
  right : w.WellKeyed
  same : v.Same w

namespace Alike
variable {u v w : Value} {xs ys : List Value} {es fs : Entries Value}

theorem refl (h : v.WellKeyed) : v.Alike v := ⟨h, h, .refl v⟩

theorem trans (h : u.Alike v) (h' : v.Alike w) : u.Alike w := ⟨h.left, h'.right, h.same.trans h'.same⟩

theorem kind_eq (h : v.Alike w) : v.kind = w.kind := h.same.kind_eq

theorem eq_of_kind (h : v.Alike w) (hArray : v.kind ≠ .array) (hObject : v.kind ≠ .object) : v = w := by
  cases h.same with
  | refl => rfl
  | arr => exact absurd rfl hArray
  | obj => exact absurd rfl hObject

/-! ## Arrays and objects -/

theorem items (h : (Value.arr xs).Alike (.arr ys)) : List.Forall₂ Alike xs ys := by
  obtain ⟨hLength, hEach⟩ := h.same.elements
  apply forall₂_getElem?_iff.mpr
  refine ⟨hLength, fun i x y hx hy => ?_⟩
  have hLeft := WellKeyedItems.mem h.left x (List.mem_of_getElem? hx)
  have hRight := WellKeyedItems.mem h.right y (List.mem_of_getElem? hy)
  exact ⟨hLeft, hRight, hEach i x y hx hy⟩

theorem arr (h : List.Forall₂ Alike xs ys) : (Value.arr xs).Alike (.arr ys) where
  left := WellKeyedItems.of_mem fun x hx => by
    obtain ⟨y, _, hxy⟩ := forall₂_mem_left h hx
    exact hxy.left
  right := WellKeyedItems.of_mem fun y hy => by
    obtain ⟨x, _, hxy⟩ := forall₂_mem_right h hy
    exact hxy.right
  same := by
    obtain ⟨hLength, hEach⟩ := forall₂_getElem?_iff.mp h
    exact .arr hLength fun i x y hx hy => (hEach i x y hx hy).same

/-- Missing elements are null in both. -/
theorem element (h : (Value.arr xs).Alike (.arr ys)) (i : Nat) : (xs[i]?.getD .null).Alike (ys[i]?.getD .null) := by
  obtain ⟨hLength, hEach⟩ := forall₂_getElem?_iff.mp h.items
  cases hx : xs[i]? with
  | none =>
    rw [List.getElem?_eq_none (hLength ▸ List.getElem?_eq_none_iff.mp hx)]
    exact .refl trivial
  | some x =>
    obtain ⟨hi, _⟩ := List.getElem?_eq_some_iff.mp hx
    have hy := List.getElem?_eq_getElem (hLength ▸ hi)
    rw [hy]
    exact hEach i x _ hx hy

theorem property (h : (Value.obj es).Alike (.obj fs)) (name : String) :
    Option.Rel Alike (es.get? name) (fs.get? name) := by
  obtain ⟨hKeys, hEach⟩ := h.same.properties
  cases hx : es.get? name with
  | none =>
    have hy : fs.get? name = none := by
      rw [Entries.get?_eq_none_iff, ← hKeys, ← Entries.get?_eq_none_iff]
      exact hx
    rw [hy]
    exact .none
  | some x =>
    obtain ⟨y, hy⟩ := Entries.mem_keys_iff.mp ((hKeys name).mp (Entries.mem_keys_iff.mpr ⟨x, hx⟩))
    rw [hy]
    have hLeft := h.left.2.mem _ (Entries.mem_of_get? hx)
    have hRight := h.right.2.mem _ (Entries.mem_of_get? hy)
    exact .some ⟨hLeft, hRight, hEach name x y hx hy⟩

theorem property_getD (h : (Value.obj es).Alike (.obj fs)) (name : String) :
    ((es.get? name).getD .null).Alike ((fs.get? name).getD .null) := by
  have hFound := h.property name
  generalize es.get? name = x at hFound ⊢
  generalize fs.get? name = y at hFound ⊢
  cases hFound with
  | none => exact .refl trivial
  | some hxy => exact hxy

/-- Objects are alike if the one, with alike values in the place of its own, is a permutation of the other. -/
theorem of_perm {gs : Entries Value} (hNodup : es.keys.Nodup) (hEach : Entries.Related Alike es gs)
    (hPerm : gs.Perm fs) : (Value.obj es).Alike (.obj fs) where
  left := by
    refine ⟨hNodup, WellKeyedEntries.of_mem fun e he => ?_⟩
    obtain ⟨g, _, _, hSame⟩ := forall₂_mem_left hEach he
    exact hSame.left
  right := by
    have hKeys : es.keys = gs.keys := hEach.keys_eq
    refine ⟨(Entries.keys_perm hPerm).nodup (hKeys ▸ hNodup), WellKeyedEntries.of_mem fun f hf => ?_⟩
    obtain ⟨e, _, _, hSame⟩ := forall₂_mem_right hEach (hPerm.mem_iff.mpr hf)
    exact hSame.right
  same := by
    have hKeys : es.keys = gs.keys := hEach.keys_eq
    have hNodup' : gs.keys.Nodup := hKeys ▸ hNodup
    refine .obj (fun k => ?_) fun k x y hx hy => ?_
    · rw [hKeys]
      exact (Entries.keys_perm hPerm).mem_iff
    · obtain ⟨z, hz, hSame⟩ := hEach.get?_left hx
      have hMem := hPerm.mem_iff.mpr (Entries.mem_of_get? hy)
      cases hz.symm.trans (Entries.get?_of_mem hNodup' hMem)
      exact hSame.same

theorem perm (h : (Value.obj es).Alike (.obj fs)) : ∃ gs, Entries.Related Alike es gs ∧ gs.Perm fs := by
  have hEach : ∀ e ∈ es, ∃ g, (e.1 = g.1 ∧ e.2.Alike g.2) ∧ g ∈ fs := by
    intro e he
    have hFound := h.property e.1
    rw [h.left.get?_eq he] at hFound
    cases hRight : fs.get? e.1 with
    | none =>
      rw [hRight] at hFound
      cases hFound
    | some y =>
      rw [hRight] at hFound
      exact ⟨(e.1, y), ⟨rfl, Option.rel_some_some.mp hFound⟩, Entries.mem_of_get? hRight⟩
  obtain ⟨gs, hgs⟩ := exists_forall₂ hEach
  have hRelated : Entries.Related Alike es gs := hgs.imp fun _ _ => And.left
  have hKeys : es.keys = Entries.keys gs := hRelated.keys_eq
  have hLeft : gs.Nodup := Entries.nodup_of_keys (hKeys ▸ h.left.1)
  have hRight : fs.Nodup := Entries.nodup_of_keys h.right.1
  refine ⟨gs, hRelated, (List.perm_ext_iff_of_nodup hLeft hRight).mpr fun f => ⟨fun hf => ?_, fun hf => ?_⟩⟩
  · obtain ⟨_, _, _, hMem⟩ := forall₂_mem_right hgs hf
    exact hMem
  · have hName : f.1 ∈ es.keys := (h.same.properties.1 f.1).mpr (List.mem_map_of_mem hf)
    rw [hKeys] at hName
    obtain ⟨g, hg, hSameName⟩ := List.mem_map.mp hName
    obtain ⟨_, _, _, hMem⟩ := forall₂_mem_right hgs hg
    have hSame := (h.right.get?_eq hMem).symm.trans (hSameName ▸ h.right.get?_eq hf)
    exact (Prod.ext hSameName (Option.some.inj hSame)) ▸ hg

theorem merge {a b c d : Value} (h : a.Alike c) (h' : b.Alike d) : (a.merge b).Alike (c.merge d) :=
  ⟨h.left.merge h'.left, h.right.merge h'.right, h.same.merge h'.same h'.left h'.right⟩

/-! ## Literals -/

theorem exists_items {k : Value} (h : (Value.arr xs).Alike k) : ∃ ys, k = .arr ys := by
  cases k with
  | arr ys => exact ⟨ys, rfl⟩
  | _ => cases h.kind_eq

theorem exists_entries {k : Value} (h : (Value.obj es).Alike k) : ∃ fs : Entries Value, k = .obj fs :=
  exists_entries_of_kind h.kind_eq.symm

theorem beqItems_congr (h : List.Forall₂ (fun x y => ∀ u, (x == u) = (y == u)) xs ys) (us : List Value) :
    beqItems xs us = beqItems ys us := by
  induction h generalizing us with
  | nil => rfl
  | cons hHead _ ih =>
    cases us with
    | nil => rfl
    | cons u rest => exact congrArg₂ (· && ·) (hHead u) (ih rest)

theorem beqEntries_congr (h : Entries.Related (fun x y => ∀ u, (x == u) = (y == u)) es fs) (us : Entries Value) :
    beqEntries es us = beqEntries fs us := by
  rw [Bool.eq_iff_iff, beqEntries_iff, beqEntries_iff]
  constructor
  · intro hEach f hf
    obtain ⟨e, he, hName, hSame⟩ := forall₂_mem_right h hf
    obtain ⟨u, hu, hEqual⟩ := hEach e he
    exact ⟨u, hName ▸ hu, hSame u ▸ hEqual⟩
  · intro hEach e he
    obtain ⟨f, hf, hName, hSame⟩ := forall₂_mem_left h he
    obtain ⟨u, hu, hEqual⟩ := hEach f hf
    exact ⟨u, hName ▸ hu, (hSame u).symm ▸ hEqual⟩

theorem beqEntries_perm (h : es.Perm fs) (us : Entries Value) : beqEntries es us = beqEntries fs us := by
  rw [Bool.eq_iff_iff, beqEntries_iff, beqEntries_iff]
  exact forall_congr' fun e => imp_congr_left h.mem_iff

theorem string?_eq (h : v.Alike w) : v.string? = w.string? := by
  by_cases hString : v.kind = .string
  · rw [h.eq_of_kind (hString ▸ by decide) (hString ▸ by decide)]
  · have hOther : ∀ u : Value, u.kind ≠ .string → u.string? = none := by
      intro u hu
      cases u with
      | str s => exact absurd rfl hu
      | _ => rfl
    rw [hOther v hString, hOther w (h.kind_eq ▸ hString)]

theorem get?_rel (h : v.Alike w) (name : String) : Option.Rel Alike (v.get? name) (w.get? name) := by
  by_cases hObject : v.kind = .object
  · obtain ⟨es, rfl⟩ := exists_entries_of_kind hObject
    obtain ⟨fs, rfl⟩ := h.exists_entries
    exact h.property name
  · have hOther : ∀ u : Value, u.kind ≠ .object → u.get? name = none := by
      intro u hu
      cases u with
      | obj es => exact absurd rfl hu
      | _ => rfl
    rw [hOther v hObject, hOther w (h.kind_eq ▸ hObject)]
    exact .none

theorem has_eq (h : v.Alike w) (name : String) : v.has name = w.has name := by
  have hFound := h.get?_rel name
  unfold Value.has
  generalize v.get? name = x at hFound ⊢
  generalize w.get? name = y at hFound ⊢
  cases hFound <;> rfl

/-- Equality looks past the order of entries, so whatever the one equals, the other equals. -/
theorem beq_eq (h : v.Alike w) (u : Value) : (v == u) = (w == u) := by
  induction v using parts_induction generalizing w u with
  | step v ih =>
    cases v with
    | arr xs =>
      obtain ⟨ys, rfl⟩ := h.exists_items
      have hItems : List.Forall₂ (fun x y => ∀ u, (x == u) = (y == u)) xs ys :=
        forall₂_imp_of_mem h.items fun x hx _ hxy => ih x hx hxy
      cases u with
      | arr us => exact beqItems_congr hItems us
      | _ => rfl
    | obj es =>
      obtain ⟨fs, rfl⟩ := h.exists_entries
      obtain ⟨gs, hRelated, hPerm⟩ := h.perm
      have hEntries : Entries.Related (fun x y => ∀ u, (x == u) = (y == u)) es gs :=
        forall₂_imp_of_mem hRelated fun e he _ hef => ⟨hef.1, ih e.2 (List.mem_map_of_mem he) hef.2⟩
      have hLength : es.length = fs.length := hRelated.length_eq.trans hPerm.length_eq
      cases u with
      | obj us =>
        have hSame : beqEntries es us = beqEntries fs us :=
          (beqEntries_congr hEntries us).trans (beqEntries_perm hPerm us)
        exact congrArg₂ (fun n b => n == us.length && b) hLength hSame
      | _ => rfl
    | _ => rw [h.eq_of_kind (by simp [kind]) (by simp [kind])]

theorem contains_eq (h : v.Alike w) (values : List Value) : values.contains v = values.contains w := by
  induction values with
  | nil => rfl
  | cons u rest ih => rw [List.contains_cons, List.contains_cons, h.beq_eq u, ih]

end Alike

mutual

/-- There is no object in the value. -/
def ObjectFree : Value → Prop
  | arr items => ObjectFreeItems items
  | obj _ => False
  | _ => True

def ObjectFreeItems : List Value → Prop
  | [] => True
  | v :: rest => ObjectFree v ∧ ObjectFreeItems rest

end

theorem objectFreeItems_iff {items : List Value} : ObjectFreeItems items ↔ ∀ v ∈ items, v.ObjectFree := by
  induction items with
  | nil => simp [ObjectFreeItems]
  | cons v rest ih => rw [ObjectFreeItems, ih, List.forall_mem_cons]

theorem objectFree_of_beq {v u : Value} (h : (v == u) = true) (hu : u.ObjectFree) : v.ObjectFree := by
  induction v using parts_induction generalizing u with
  | step v ih =>
    cases v with
    | arr xs =>
      cases u with
      | arr us =>
        rw [ObjectFree, objectFreeItems_iff]
        intro x hx
        obtain ⟨u, hMem, hEqual⟩ := forall₂_mem_left (beqItems_iff.mp h) hx
        exact ih x hx hEqual (objectFreeItems_iff.mp hu u hMem)
      | _ => cases h
    | obj es =>
      cases u with
      | obj us => exact hu
      | _ => cases h
    | _ => trivial

theorem Alike.eq_of_objectFree {v w : Value} (h : v.Alike w) (hFree : v.ObjectFree) : v = w := by
  induction v using parts_induction generalizing w with
  | step v ih =>
    cases v with
    | arr xs =>
      obtain ⟨ys, rfl⟩ := h.exists_items
      have hEach := objectFreeItems_iff.mp hFree
      have hSame := forall₂_imp_of_mem h.items fun x hx _ hxy => ih x hx hxy (hEach x hx)
      rw [List.forall₂_eq_eq_eq] at hSame
      rw [hSame]
    | obj es => exact hFree.elim
    | _ => exact h.eq_of_kind (by simp [kind]) (by simp [kind])

end Value

end JsonShapes
