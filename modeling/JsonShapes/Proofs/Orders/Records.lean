import JsonShapes.Proofs.Orders.Couplings

/-! # Records in another order

A record is checked in the order of its entries. Where runs have no effects, all orders give the same fields, in
the order in which they were checked.
-/
namespace JsonShapes
set_option autoImplicit false

/-- Runs without effects. -/
def Coupling.plain : Coupling Option where
  Holds R := Option.Rel R
  pure h := .some h
  bind hx hf := by
    cases hx with
    | none => exact .none
    | some hab => exact hf _ _ hab

theorem rel_trans {α β γ : Type} {R : α → β → Prop} {S : β → γ → Prop} {T : α → γ → Prop} {x : Option α}
    {y : Option β} {z : Option γ} (h : Option.Rel R x y) (h' : Option.Rel S y z)
    (hTrans : ∀ a b c, R a b → S b c → T a c) : Option.Rel T x z := by
  cases h with
  | none =>
    cases h'
    exact .none
  | some hab =>
    cases h' with
    | some hbc => exact .some (hTrans _ _ _ hab hbc)

theorem mapM_perm {τ α : Type} {f : τ → Option α} {xs ys : List τ} (h : xs.Perm ys) :
    Option.Rel List.Perm (xs.mapM f) (ys.mapM f) := by
  induction h with
  | nil => exact .some (.refl _)
  | cons x _ ih =>
    rw [List.mapM_cons, List.mapM_cons]
    cases f x with
    | none => exact .none
    | some a =>
      change Coupling.plain.Holds List.Perm (List.mapM f _ >>= fun as => pure (a :: as))
        (List.mapM f _ >>= fun as => pure (a :: as))
      exact Coupling.plain.bind ih fun _ _ hRest => .some (hRest.cons a)
  | swap x y rest =>
    simp only [List.mapM_cons]
    cases f x with
    | none => cases f y <;> exact .none
    | some a =>
      cases f y with
      | none => exact .none
      | some b =>
        cases rest.mapM f with
        | none => exact .none
        | some as => exact .some (.swap a b as)
  | trans _ _ ih ih' => exact rel_trans ih ih' fun _ _ _ => .trans

namespace Checked
variable {ε α τ : Type} {f : String → τ → Option (Checked ε α)} {es fs : Entries τ}

theorem mem_traverseKeyed (hNodup : es.keys.Nodup) {as : Entries α} (h : traverseKeyed es f = some (.ok as)) :
    as.keys.Nodup ∧ ∀ name a, (name, a) ∈ as ↔ ∃ x, (name, x) ∈ es ∧ f name x = some (.ok a) := by
  obtain ⟨fields, hFields, rfl⟩ := traverseKeyed_eq_ok_iff.mp h
  have hKeys : fields.keys = es.keys := by
    rw [← hFields.keys_eq]
    exact List.map_map
  rw [Entries.ofList_of_nodup (hKeys ▸ hNodup)]
  refine ⟨hKeys ▸ hNodup, fun name a => ⟨fun hMem => ?_, ?_⟩⟩
  · obtain ⟨r, hr, hName, hRun⟩ := forall₂_mem_right hFields hMem
    obtain ⟨e, he, rfl⟩ := List.mem_map.mp hr
    cases hName
    exact ⟨e.2, he, hRun⟩
  · rintro ⟨x, hx, hRun⟩
    obtain ⟨⟨_, b⟩, hMem, hName, hSame⟩ := forall₂_mem_left hFields (List.mem_map_of_mem hx)
    cases hName
    cases hRun.symm.trans hSame
    exact hMem

theorem traverseKeyed_perm (hNodup : es.keys.Nodup) (hPerm : es.Perm fs) :
    Option.Rel (Related fun as bs : Entries α => as.keys.Nodup ∧ as.Perm bs)
      (traverseKeyed es f) (traverseKeyed fs f) := by
  have hVerdict : Option.Rel (fun r r' => r.isOk = r'.isOk) (traverseKeyed es f) (traverseKeyed fs f) := by
    refine Coupling.plain.bind (mapM_perm hPerm) fun rs rs' hResults => .some ?_
    rw [isOk_map, isOk_map, isOk_collect, isOk_collect, hResults.all_eq]
  cases hLeft : traverseKeyed es f with
  | none =>
    rw [hLeft] at hVerdict
    cases hRight : traverseKeyed fs f with
    | none => exact .none
    | some r' =>
      rw [hRight] at hVerdict
      cases hVerdict
  | some r =>
    rw [hLeft] at hVerdict
    cases hRight : traverseKeyed fs f with
    | none =>
      rw [hRight] at hVerdict
      cases hVerdict
    | some r' =>
      rw [hRight] at hVerdict
      have hSame : r.isOk = r'.isOk := by
        cases hVerdict with
        | some hSame => exact hSame
      refine .some (.of_isOk hSame fun as bs ha hb => ?_)
      obtain ⟨hKeys, hMem⟩ := mem_traverseKeyed hNodup (ha ▸ hLeft)
      obtain ⟨hKeys', hMem'⟩ := mem_traverseKeyed ((Entries.keys_perm hPerm).nodup hNodup) (hb ▸ hRight)
      refine ⟨hKeys, (List.perm_ext_iff_of_nodup (Entries.nodup_of_keys hKeys) (Entries.nodup_of_keys hKeys')).mpr ?_⟩
      rintro ⟨name, a⟩
      rw [hMem, hMem']
      exact exists_congr fun x => and_congr_left fun _ => hPerm.mem_iff

end Checked

theorem Coupling.plain_keepsRecords : Coupling.plain.KeepsRecords .alike := by
  intro check h
  refine Checks.of_objects (fun _ hv => ⟨_, Check.record_of_kind check hv⟩) fun es fs hObjects => ?_
  obtain ⟨gs, hEach, hPerm⟩ := hObjects.perm
  have hNodup : gs.keys.Nodup := hEach.keys_eq ▸ hObjects.left.1
  have hAlike : Coupling.plain.Holds (Checked.Related Likeness.alike.Rel)
      (Check.record check (.obj es)) (Check.record check (.obj gs)) :=
    Checks.fields (Coupling.plain.traverseKeyed hEach fun _ x y hxy => located (h x y hxy) _)
  have hPermuted : Coupling.plain.Holds (Checked.Related fun a b : Value => a.WellKeyed → a.Alike b)
      (Check.record check (.obj gs)) (Check.record check (.obj fs)) := by
    refine Coupling.plain.bind (Checked.traverseKeyed_perm hNodup hPerm) fun r r' hFields => .some ?_
    refine hFields.map fun as bs hPerm hKeyed => ?_
    have hSame : Entries.Related Value.Alike as as :=
      List.forall₂_same.mpr fun e he => ⟨rfl, .refl (hKeyed.2.mem e he)⟩
    exact .of_perm hPerm.1 hSame hPerm.2
  refine rel_trans hAlike hPermuted fun r r' r'' hFirst hSecond => hFirst.trans hSecond fun a b c hab hbc => ?_
  exact hab.trans (hbc hab.right)

end JsonShapes
