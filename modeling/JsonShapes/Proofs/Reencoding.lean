import JsonShapes.Proofs.Finite

/-! # Encoding what was decoded

An encoder goes by the value alone. Where two shapes are intersected, the encoder of each is given an object
that has properties from both, and the right one wins; what it was not made for must not be disturbed by it.
The induction therefore follows an object that stands in for the decoded one: outside the names that some
other shape will overwrite it has what was decoded, and it is still a projection of the input, so that tags
lead to the same members and what the input lacks is null.
-/
namespace JsonShapes
set_option autoImplicit false

/-! ## Objects that stand in for decoded ones -/

section
variable {V A U E : Entries Value} {K : String → Prop}

/-- `U` stands in for `A`, which `V` was decoded to. The names in `K` are somebody else's. -/
structure StandsIn (V A U : Entries Value) (K : String → Prop) : Prop where
  projected : (Value.obj V).ProjectedFrom (.obj U)
  covered : ∀ {k}, K k → k ∈ U.keys
  kept : ∀ {k x}, ¬K k → A.get? k = some x → U.get? k = some x

/-- `E` is good enough as an encoding of `A`, made from `U`. -/
structure Restored (A U E : Entries Value) (K : String → Prop) : Prop where
  nodup : E.keys.Nodup
  complete : ∀ {k}, k ∈ A.keys → k ∈ E.keys
  bounded : ∀ {k}, k ∈ E.keys → k ∈ U.keys
  same : ∀ {k y}, ¬K k → E.get? k = some y → ∃ x, U.get? k = some x ∧ (y == x) = true

theorem StandsIn.refl (h : (Value.obj V).ProjectedFrom (.obj A)) : StandsIn V A A fun _ => False where
  projected := h
  covered hK := hK.elim
  kept _ hx := hx

theorem StandsIn.mem_keys (h : StandsIn V A U K) {k : String} (hk : k ∈ A.keys) : k ∈ U.keys := by
  by_cases hK : K k
  · exact h.covered hK
  · obtain ⟨x, hx⟩ := Entries.mem_keys_iff.mp hk
    exact Entries.mem_keys_iff.mpr ⟨x, h.kept hK hx⟩

/-- For the right one of two merged objects it stands in under the same names. -/
theorem StandsIn.merge_right {B : Entries Value} (hB : B.keys.Nodup) (h : StandsIn V (A.merge B) U K) :
    StandsIn V B U K where
  projected := h.projected
  covered := h.covered
  kept := by
    intro k x hK hx
    apply h.kept hK
    rw [Entries.get?_merge hB, hx]
    rfl

/-- For the left one, the names of the right one are somebody else's. -/
theorem StandsIn.merge_left {B : Entries Value} (hB : B.keys.Nodup) (h : StandsIn V (A.merge B) U K) :
    StandsIn V A U fun k => K k ∨ k ∈ B.keys where
  projected := h.projected
  covered := by
    rintro k (hK | hk)
    · exact h.covered hK
    · exact h.mem_keys ((Entries.mem_keys_merge hB).mpr (.inr hk))
  kept := by
    intro k x hK hx
    obtain ⟨hK, hk⟩ := not_or.mp hK
    apply h.kept hK
    rw [Entries.get?_merge hB, Entries.get?_eq_none_iff.mpr hk, hx]
    rfl

/-- What is left as it stands is restored. -/
theorem StandsIn.restored_self (h : StandsIn V A U K) (hFinite : (Value.obj V).Finite) :
    Restored A U U K where
  nodup := h.projected.wellKeyed.1
  complete := h.mem_keys
  bounded hk := hk
  same {k y} _ hy := by
    have hMem := Entries.mem_of_get? hy
    have hU := hFinite.projection h.projected.projection
    exact ⟨y, hy, (hU.part (List.mem_map_of_mem hMem)).beq_self (h.projected.wellKeyed.2.mem _ hMem)⟩

end

/-! ## Checks and transforms -/

/-- The transform gives back what the check has decoded. With `closed` it may count on an object that stands in
to have no names but those that were decoded and those that are somebody else's. -/
structure Restores (closed : Prop) (check : Check Option) (transform : Transform Option) : Prop where
  projecting : ∀ {v w}, v.WellKeyed → check v = some (.ok w) → v.ProjectedFrom w
  other : ∀ {v w w'}, v.kind ≠ .object → v.WellKeyed → v.Finite → check v = some (.ok w) →
    transform w = some w' → (w' == w) = true
  fields : ∀ {V A U : Entries Value} {K : String → Prop} {e : Value}, (Value.obj V).WellKeyed →
    (Value.obj V).Finite → check (.obj V) = some (.ok (.obj A)) → StandsIn V A U K →
    (closed → ∀ k, ¬K k → k ∈ U.keys → k ∈ A.keys) → transform (.obj U) = some e →
    ∃ E : Entries Value, e = .obj E ∧ Restored A U E K

namespace Restores
variable {closed : Prop} {check left right : Check Option} {transform leftBack rightBack : Transform Option}

theorem whole (h : Restores closed check transform) {v w w' : Value} (hKeys : v.WellKeyed)
    (hFinite : v.Finite) (hDecoded : check v = some (.ok w)) (hEncoded : transform w = some w') :
    (w' == w) = true := by
  have hProjected := h.projecting hKeys hDecoded
  cases v with
  | obj V =>
    obtain ⟨A, rfl⟩ := hProjected.projection.exists_entries
    obtain ⟨E, rfl, hE⟩ :=
      h.fields hKeys hFinite hDecoded (.refl hProjected) (fun _ _ _ hk => hk) hEncoded
    refine Value.obj_beq hE.nodup hProjected.wellKeyed.1 (fun k => ⟨hE.bounded, hE.complete⟩) ?_
    intro k y x hy hx
    obtain ⟨x', hx', hSame⟩ := hE.same (fun hK => hK) hy
    cases hx.symm.trans hx'
    exact hSame
  | _ => exact h.other (by simp [Value.kind]) hKeys hFinite hDecoded hEncoded

/-- Nothing is asked where one of the two never comes to an end. -/
theorem endless (hProjecting : ∀ {v w}, v.WellKeyed → check v = some (.ok w) → v.ProjectedFrom w)
    (h : ∀ {v w u e}, check v = some (.ok w) → transform u = some e → False) :
    Restores closed check transform where
  projecting := hProjecting
  other _ _ _ hDecoded hEncoded := (h hDecoded hEncoded).elim
  fields _ _ hDecoded _ _ hEncoded := (h hDecoded hEncoded).elim

/-- What is decoded to itself may be left as it stands. -/
theorem verbatim (hProjecting : ∀ {v w}, v.WellKeyed → check v = some (.ok w) → v.ProjectedFrom w)
    (hSame : ∀ {v w}, check v = some (.ok w) → w = v) :
    Restores closed check (Transform.convert fun v => v) where
  projecting := hProjecting
  other _ hKeys hFinite hDecoded hEncoded := by
    cases hSame hDecoded
    cases hEncoded
    exact hFinite.beq_self hKeys
  fields _ hFinite _ hU _ hEncoded := by
    cases hEncoded
    exact ⟨_, rfl, hU.restored_self hFinite⟩

theorem nullable (h : Restores closed check transform)
    (hProjecting : ∀ {v w}, v.WellKeyed → Check.nullable check v = some (.ok w) → v.ProjectedFrom w) :
    Restores closed (Check.nullable check) (Transform.nullable transform) where
  projecting := hProjecting
  other hKind hKeys hFinite hDecoded hEncoded := by
    rcases Transform.nullable_eq_some_iff.mp hEncoded with ⟨rfl, rfl⟩ | ⟨hNull, hOr'⟩
    · rfl
    · rcases Check.nullable_eq_ok_iff.mp hDecoded with ⟨_, rfl⟩ | ⟨_, hOr⟩
      · exact absurd rfl hNull
      · exact h.other hKind hKeys hFinite hOr hOr'
  fields hKeys hFinite hDecoded hU hOnly hEncoded := by
    rcases Check.nullable_eq_ok_iff.mp hDecoded with ⟨hNull, _⟩ | ⟨_, hOr⟩
    · cases hNull
    · exact h.fields hKeys hFinite hOr hU hOnly hEncoded

section
variable {checks : Entries (Check Option)} {transforms : Entries (Transform Option)}

theorem object (h : Entries.Related (Restores True) checks transforms)
    (hProjecting : ∀ {v w}, v.WellKeyed → Check.object checks v = some (.ok w) → v.ProjectedFrom w) :
    Restores closed (Check.object checks) (Transform.object transforms) where
  projecting := hProjecting
  other hKind _ _ hDecoded _ := by
    obtain ⟨_, _, rfl, _⟩ := Check.object_eq_ok_iff.mp hDecoded
    exact absurd rfl hKind
  fields {V A U K e} hKeys hFinite hDecoded hU _ hEncoded := by
    have hA := Check.object_corresponds hDecoded
    obtain ⟨E, rfl, hE⟩ := Transform.object_corresponds hEncoded
    have hNames : ∀ {k}, k ∈ E.keys ↔ k ∈ A.keys := by
      intro k
      rw [hA.mem_keys_iff, hE.mem_keys_iff, h.ofList.keys_eq]
    refine ⟨E, rfl, hE.nodup, hNames.mpr, fun hk => hU.mem_keys (hNames.mp hk), ?_⟩
    intro k y hK hy
    obtain ⟨t, ht, hRun⟩ := hE.right hy
    obtain ⟨c, hc, hct⟩ := h.ofList.get?_right ht
    obtain ⟨x, hx, hCheck⟩ := hA.left hc
    have hSame := hU.kept hK hx
    rw [hSame] at hRun
    exact ⟨x, hSame, hct.whole (hKeys.property k) (hFinite.property k) hCheck hRun⟩

theorem partialObject (h : Entries.Related (Restores True) checks transforms)
    (hProjecting : ∀ {v w}, v.WellKeyed → Check.partialObject checks v = some (.ok w) → v.ProjectedFrom w) :
    Restores closed (Check.partialObject checks) (Transform.partialObject transforms) where
  projecting := hProjecting
  other hKind _ _ hDecoded _ := by
    obtain ⟨_, _, rfl, _⟩ := Check.partialObject_eq_ok_iff.mp hDecoded
    exact absurd rfl hKind
  fields {V A U K e} hKeys hFinite hDecoded hU _ hEncoded := by
    have hA := Check.partialObject_corresponds hDecoded
    obtain ⟨E, rfl, hE⟩ := Transform.partialObject_corresponds hEncoded
    have hNames : ∀ {k}, k ∈ E.keys ↔ k ∈ U.keys ∧ k ∈ (Entries.ofList checks).keys := by
      intro k
      rw [hE.mem_keys_iff, Entries.mem_keys_present, h.ofList.keys_eq]
    refine ⟨E, rfl, hE.nodup, ?_, fun hk => (hNames.mp hk).1, ?_⟩
    · intro k hk
      have hPresent := hA.mem_keys_iff.mp hk
      exact hNames.mpr ⟨hU.mem_keys hk, (Entries.mem_keys_present.mp hPresent).2⟩
    · intro k y hK hy
      obtain ⟨_, hPresent, hRun⟩ := hE.right hy
      obtain ⟨x, t, hx, ht, rfl⟩ := Entries.get?_present_eq_some_iff.mp hPresent
      obtain ⟨c, hc, hct⟩ := h.ofList.get?_right ht
      refine ⟨x, hx, ?_⟩
      rcases Transform.nullable_eq_some_iff.mp hRun with ⟨rfl, rfl⟩ | ⟨hNull, hRun⟩
      · rfl
      · have hProjection := hU.projected.projection.property hx
        cases hRaw : V.get? k with
        | none =>
          -- What the input lacks is null in everything that was made of it.
          rw [hRaw] at hProjection
          exact absurd hProjection.eq_null hNull
        | some raw =>
          obtain ⟨x', hx', hCheck⟩ := hA.left (Entries.get?_present_eq_some_iff.mpr ⟨raw, c, hRaw, hc, rfl⟩)
          cases hx.symm.trans (hU.kept hK hx')
          rcases Check.nullable_eq_ok_iff.mp hCheck with ⟨_, hx'⟩ | ⟨_, hCheck⟩
          · exact absurd hx' hNull
          · have hKeys' := hKeys.property k
            have hFinite' := hFinite.property k
            rw [hRaw] at hKeys' hFinite'
            exact hct.whole hKeys' hFinite' hCheck hRun

end

theorem record (h : Restores True check transform)
    (hProjecting : ∀ {v w}, v.WellKeyed → Check.record check v = some (.ok w) → v.ProjectedFrom w)
    (hClosed : closed) : Restores closed (Check.record check) (Transform.record transform) where
  projecting := hProjecting
  other hKind _ _ hDecoded _ := by
    obtain ⟨_, _, rfl, _⟩ := Check.record_eq_ok_iff.mp hDecoded
    exact absurd rfl hKind
  fields {V A U K e} hKeys hFinite hDecoded hU hOnly hEncoded := by
    have hA := Check.record_corresponds hKeys.1 hDecoded
    obtain ⟨E, rfl, hE⟩ := Transform.record_corresponds hU.projected.wellKeyed.1 hEncoded
    refine ⟨E, rfl, hE.nodup, fun hk => hE.mem_keys_iff.mpr (hU.mem_keys hk), hE.mem_keys_iff.mp, ?_⟩
    intro k y hK hy
    obtain ⟨x, hx, hRun⟩ := hE.right hy
    -- Only here may a name that was never decoded do harm.
    obtain ⟨x', hx'⟩ := Entries.mem_keys_iff.mp (hOnly hClosed k hK (Entries.mem_keys_iff.mpr ⟨x, hx⟩))
    cases hx.symm.trans (hU.kept hK hx')
    obtain ⟨raw, hRaw, hCheck⟩ := hA.right hx'
    have hMem := Entries.mem_of_get? hRaw
    exact ⟨x, hx, h.whole (hKeys.2.mem _ hMem) (hFinite.part (List.mem_map_of_mem hMem)) hCheck hRun⟩

theorem array (h : Restores True check transform)
    (hProjecting : ∀ {v w}, v.WellKeyed → Check.array check v = some (.ok w) → v.ProjectedFrom w) :
    Restores closed (Check.array check) (Transform.array transform) where
  projecting := hProjecting
  other _ hKeys hFinite hDecoded hEncoded := by
    obtain ⟨items, decoded, rfl, hItems, rfl⟩ := Check.array_eq_ok_iff.mp hDecoded
    obtain ⟨encoded, hBack, rfl⟩ := Transform.array_eq_some_iff.mp hEncoded
    obtain ⟨hLength, hItems⟩ := forall₂_getElem?_iff.mp hItems
    obtain ⟨hLength', hBack⟩ := forall₂_getElem?_iff.mp hBack
    apply Value.arr_beq
    apply forall₂_getElem?_iff.mpr
    refine ⟨hLength'.symm, ?_⟩
    intro i y x hy hx
    obtain ⟨item, hItem⟩ : ∃ item, items[i]? = some item := by
      have hi := (List.getElem?_eq_some_iff.mp hx).1
      exact ⟨_, List.getElem?_eq_getElem (hLength ▸ hi)⟩
    have hMem := List.mem_of_getElem? hItem
    exact h.whole (Value.WellKeyedItems.mem hKeys item hMem) (hFinite.part hMem)
      (hItems i item x hItem hx) (hBack i x y hx hy)
  fields _ _ hDecoded _ _ _ := by
    obtain ⟨_, _, hItems, _⟩ := Check.array_eq_ok_iff.mp hDecoded
    cases hItems

theorem tuple {checks : List (Check Option)} {transforms : List (Transform Option)}
    (h : List.Forall₂ (Restores True) checks transforms)
    (hProjecting : ∀ {v w}, v.WellKeyed → Check.tuple checks v = some (.ok w) → v.ProjectedFrom w) :
    Restores closed (Check.tuple checks) (Transform.tuple transforms) where
  projecting := hProjecting
  other _ hKeys hFinite hDecoded hEncoded := by
    obtain ⟨items, decoded, rfl, _, hLength, hSlots, rfl⟩ := Check.tuple_eq_ok_iff.mp hDecoded
    obtain ⟨encoded, hBack, rfl⟩ := Transform.tuple_eq_some_iff.mp hEncoded
    obtain ⟨hLength', hBack⟩ := forall₂_getElem?_iff.mp hBack
    obtain ⟨hSame, hParts⟩ := forall₂_getElem?_iff.mp h
    have hZip : (decoded.zip transforms).length = decoded.length := by
      rw [List.length_zip, ← hSame, hLength, Nat.min_self]
    apply Value.arr_beq
    apply forall₂_getElem?_iff.mpr
    refine ⟨hLength'.symm.trans hZip, ?_⟩
    intro i y x hy hx
    have hi : i < decoded.length := (List.getElem?_eq_some_iff.mp hx).1
    obtain ⟨c, hc⟩ : ∃ c, checks[i]? = some c := ⟨_, List.getElem?_eq_getElem (hLength ▸ hi)⟩
    obtain ⟨t, ht⟩ : ∃ t, transforms[i]? = some t :=
      ⟨_, List.getElem?_eq_getElem (hSame ▸ hLength ▸ hi)⟩
    have hBoth : (decoded.zip transforms)[i]? = some (x, t) := List.getElem?_zip_eq_some.mpr ⟨hx, ht⟩
    exact (hParts i c t hc ht).whole (hKeys.element i) (hFinite.element i) (hSlots i c x hc hx)
      (hBack i (x, t) y hBoth hy)
  fields _ _ hDecoded _ _ _ := by
    obtain ⟨_, _, hItems, _⟩ := Check.tuple_eq_ok_iff.mp hDecoded
    cases hItems

theorem inter (hLeft : Restores closed left leftBack) (hRight : Restores False right rightBack)
    (hProjecting : ∀ {v w}, v.WellKeyed → Check.inter left right v = some (.ok w) → v.ProjectedFrom w) :
    Restores closed (Check.inter left right) (Transform.inter leftBack rightBack) where
  projecting := hProjecting
  other {v w w'} hKind hKeys hFinite hDecoded hEncoded := by
    obtain ⟨a, b, hA, hB, rfl⟩ := Check.inter_eq_ok_iff.mp hDecoded
    obtain ⟨a', b', hA', hB', rfl⟩ := Transform.inter_eq_some_iff.mp hEncoded
    have hOther : b.kind ≠ .object := (hRight.projecting hKeys hB).projection.kind_eq ▸ hKind
    rw [Value.merge_eq_right (.inr hOther)] at hB' ⊢
    have hSame := hRight.whole hKeys hFinite hB hB'
    rw [Value.merge_eq_right (.inr (Value.beq_kind hSame ▸ hOther))]
    exact hSame
  fields {V W U K e} hKeys hFinite hDecoded hU hOnly hEncoded := by
    obtain ⟨a, b, hA, hB, hMerge⟩ := Check.inter_eq_ok_iff.mp hDecoded
    obtain ⟨a', b', hA', hB', rfl⟩ := Transform.inter_eq_some_iff.mp hEncoded
    obtain ⟨A, rfl⟩ := (hLeft.projecting hKeys hA).projection.exists_entries
    have hProjected := hRight.projecting hKeys hB
    obtain ⟨B, rfl⟩ := hProjected.projection.exists_entries
    cases hMerge
    have hNames : ∀ {k}, k ∈ Entries.keys (A.merge B) ↔ k ∈ A.keys ∨ k ∈ B.keys :=
      Entries.mem_keys_merge hProjected.wellKeyed.1
    have hOnlyLeft : closed → ∀ k, ¬(K k ∨ k ∈ B.keys) → k ∈ U.keys → k ∈ A.keys := by
      intro hClosed k hK hk
      obtain ⟨hK, hNotRight⟩ := not_or.mp hK
      exact (hNames.mp (hOnly hClosed k hK hk)).resolve_right hNotRight
    obtain ⟨E, rfl, hE⟩ := hLeft.fields hKeys hFinite hA (hU.merge_left hProjected.wellKeyed.1) hOnlyLeft hA'
    obtain ⟨F, rfl, hF⟩ :=
      hRight.fields hKeys hFinite hB (hU.merge_right hProjected.wellKeyed.1) (fun h => h.elim) hB'
    refine ⟨E.merge F, rfl, Entries.nodup_keys_merge hE.nodup F, ?_, ?_, ?_⟩
    · intro k hk
      exact (Entries.mem_keys_merge hF.nodup).mpr ((hNames.mp hk).imp hE.complete hF.complete)
    · intro k hk
      exact ((Entries.mem_keys_merge hF.nodup).mp hk).elim hE.bounded hF.bounded
    · intro k y hK hy
      rw [Entries.get?_merge hF.nodup] at hy
      rcases Option.or_eq_some_iff.mp hy with hy | ⟨hNone, hy⟩
      · exact hF.same hK hy
      · have hNotRight : k ∉ B.keys := fun hk => Entries.get?_eq_none_iff.mp hNone (hF.complete hk)
        exact hE.same (not_or.mpr ⟨hK, hNotRight⟩) hy

/-- A value that has lost its tag is left as it stands; one that still has a tag has that of the input. -/
theorem tagged {tag : String} {checks : Entries (Check Option)} {transforms : Entries (Transform Option)}
    (h : Entries.Related (Restores closed) checks transforms)
    (hProjecting : ∀ {v w}, v.WellKeyed → Check.tagged tag checks v = some (.ok w) → v.ProjectedFrom w) :
    Restores closed (Check.tagged tag checks) (Transform.tagged tag transforms) where
  projecting := hProjecting
  other {v w w'} hKind _ _ hDecoded _ := by
    obtain ⟨name, _, hTag, _⟩ := Check.tagged_eq_ok_iff.mp hDecoded
    cases v with
    | obj V => exact absurd rfl hKind
    | _ => cases hTag
  fields {V A U K e} hKeys hFinite hDecoded hU hOnly hEncoded := by
    obtain ⟨name, c, hTag, hMember, hRun⟩ := Check.tagged_eq_ok_iff.mp hDecoded
    obtain ⟨t, ht, hct⟩ := h.ofList.get?_left hMember
    have hTag : V.get? tag = some (.str name) := hTag
    cases hKept : U.get? tag with
    | none =>
      simp only [Transform.tagged, Value.get?, hKept, Option.bind_none] at hEncoded
      cases hEncoded
      exact ⟨U, rfl, hU.restored_self hFinite⟩
    | some raw =>
      have hProjection := hU.projected.projection.property hKept
      rw [hTag] at hProjection
      cases hProjection.eq_str
      simp only [Transform.tagged, Value.get?, hKept, Option.bind_some, Value.string?, ht] at hEncoded
      exact hct.fields hKeys hFinite hRun hU hOnly hEncoded

theorem refine (h : Restores closed check transform) (holds : Value → Bool) (expected : String) :
    Restores closed (Check.andThen check fun v w => if holds v then .ok w else Decoded.reject w expected)
      transform where
  projecting hKeys hDecoded := h.projecting hKeys (Check.andThen_choose_eq_ok_iff.mp hDecoded).1
  other hKind hKeys hFinite hDecoded hEncoded :=
    h.other hKind hKeys hFinite (Check.andThen_choose_eq_ok_iff.mp hDecoded).1 hEncoded
  fields hKeys hFinite hDecoded hU hOnly hEncoded :=
    h.fields hKeys hFinite (Check.andThen_choose_eq_ok_iff.mp hDecoded).1 hU hOnly hEncoded

theorem lazy (id : String) (h : Restores closed check transform) :
    Restores closed (Check.lazy id check) transform where
  projecting hKeys hDecoded := h.projecting hKeys (Check.lazy_eq_ok_iff.mp hDecoded)
  other hKind hKeys hFinite hDecoded hEncoded :=
    h.other hKind hKeys hFinite (Check.lazy_eq_ok_iff.mp hDecoded) hEncoded
  fields hKeys hFinite hDecoded hU hOnly hEncoded :=
    h.fields hKeys hFinite (Check.lazy_eq_ok_iff.mp hDecoded) hU hOnly hEncoded

end Restores

/-! ## Schemas -/

namespace Schema

/-- No record is met in the schema, links being followed. -/
def RecordFree (definitions : Definitions) (s : Schema) : Prop :=
  s.Throughout definitions fun t => ∀ of, t ≠ record of

/-- No union is met in the schema, and no record in the right operand of an intersection. -/
structure Reencodable (definitions : Definitions) (s : Schema) : Prop where
  unions : s.Throughout definitions fun t => ∀ members, t ≠ union members
  records : s.Throughout definitions fun t => ∀ left right, t = inter left right → right.RecordFree definitions

variable {definitions : Definitions} {m n : Nat}

theorem Reencodable.next {s t : Schema} (h : s.Reencodable definitions) (ht : Leads definitions s t) :
    t.Reencodable definitions := ⟨h.unions.next ht, h.records.next ht⟩

/-- It remains to look at links. -/
theorem restores_of_links
    (hLinks : ∀ link (closed : Prop), (lazy link).Reencodable definitions →
      closed ∨ (lazy link).RecordFree definitions →
        Restores closed ((lazy link).decode definitions m) ((lazy link).encode definitions n))
    (s : Schema) (closed : Prop) (hs : s.Reencodable definitions)
    (hMode : closed ∨ s.RecordFree definitions) :
    Restores closed (s.decode definitions m) (s.encode definitions n) := by
  induction s using parts_induction generalizing closed with
  | step s ih =>
    have hPart : ∀ t ∈ s.parts, ∀ inner : Prop, inner ∨ t.RecordFree definitions →
        Restores inner (t.decode definitions m) (t.encode definitions n) :=
      fun t ht inner hInner => ih t ht inner (hs.next (.part ht)) hInner
    have hTrue : ∀ t ∈ s.parts, Restores True (t.decode definitions m) (t.encode definitions n) :=
      fun t ht => hPart t ht True (.inl trivial)
    have hSame : ∀ t ∈ s.parts, Restores closed (t.decode definitions m) (t.encode definitions n) :=
      fun t ht => hPart t ht closed (hMode.imp_right fun hFree => hFree.part ht)
    have hProjecting : ∀ {v w}, v.WellKeyed → s.decode definitions m v = some (.ok w) →
        v.ProjectedFrom w := decode_projectedFrom
    cases s with
    | kind k =>
      rw [decode_kind] at hProjecting ⊢
      exact .verbatim hProjecting fun h => (Check.kind_eq_ok_iff.mp h).2
    | literal values => exact .verbatim hProjecting fun h => (Check.literal_eq_ok_iff.mp h).2
    | nullable or =>
      rw [decode_nullable] at hProjecting ⊢
      rw [encode_nullable]
      exact .nullable (hSame or List.mem_cons_self) hProjecting
    | object props =>
      rw [decode_object] at hProjecting ⊢
      rw [encode_object]
      exact .object (Entries.related_map fun e he => hTrue e.2 (List.mem_map_of_mem he)) hProjecting
    | partialObject props =>
      rw [decode_partialObject] at hProjecting ⊢
      rw [encode_partialObject]
      exact .partialObject (Entries.related_map fun e he => hTrue e.2 (List.mem_map_of_mem he)) hProjecting
    | record of =>
      rw [decode_record] at hProjecting ⊢
      rw [encode_record]
      have hClosed := hMode.resolve_right fun hFree => hFree.here of rfl
      exact .record (hTrue of List.mem_cons_self) hProjecting hClosed
    | array of =>
      rw [decode_array] at hProjecting ⊢
      rw [encode_array]
      exact .array (hTrue of List.mem_cons_self) hProjecting
    | tuple slots =>
      rw [decode_tuple] at hProjecting ⊢
      rw [encode_tuple]
      exact .tuple (forall₂_map fun t ht => hTrue t ht) hProjecting
    | union members => exact absurd rfl (hs.unions.here members)
    | inter left right =>
      rw [decode_inter] at hProjecting ⊢
      rw [encode_inter]
      have hRight := hPart right (List.mem_cons_of_mem _ List.mem_cons_self) False
        (.inr (hs.records.here left right rfl))
      exact .inter (hSame left List.mem_cons_self) hRight hProjecting
    | tagged tag members =>
      rw [decode_tagged] at hProjecting ⊢
      rw [encode_tagged]
      exact .tagged (Entries.related_map fun e he => hSame e.2 (List.mem_map_of_mem he)) hProjecting
    | refine of holds expected =>
      rw [decode_refine, encode_refine]
      exact .refine (hSame of List.mem_cons_self) holds expected
    | lazy link => exact hLinks link closed hs hMode
    | make key body => exact hSame body List.mem_cons_self

/-- The induction is on the bound of decoding. Encoding follows the same links, or fewer of them. -/
theorem restores (s : Schema) (closed : Prop) (hs : s.Reencodable definitions)
    (hMode : closed ∨ s.RecordFree definitions) :
    Restores closed (s.decode definitions m) (s.encode definitions n) := by
  induction m generalizing n s closed with
  | zero =>
    refine restores_of_links (fun link closed _ _ => ?_) s closed hs hMode
    apply Restores.endless decode_projectedFrom
    intro v w u e hDecoded
    cases hDecoded
  | succ m ih =>
    refine restores_of_links (fun link closed hLink hMode => ?_) s closed hs hMode
    cases hFound : definitions.get? link.target with
    | none =>
      apply Restores.endless decode_projectedFrom
      intro v w u e hDecoded
      rw [decode_lazy_succ, hFound] at hDecoded
      cases hDecoded
    | some t =>
      cases n with
      | zero =>
        apply Restores.endless decode_projectedFrom
        intro v w u e _ hEncoded
        cases hEncoded
      | succ n =>
        have hDecode : (lazy link).decode definitions (m + 1) = Check.lazy link.id (t.decode definitions m) := by
          funext v
          rw [decode_lazy_succ, hFound, Option.bind_some]
        have hEncode : (lazy link).encode definitions (n + 1) = t.encode definitions n := by
          funext v
          rw [encode_lazy_succ, hFound, Option.bind_some]
        have hTarget : Restores closed (t.decode definitions m) (t.encode definitions n) :=
          ih t closed (hLink.next (.link hFound)) (hMode.imp_right fun hFree => hFree.link hFound)
        rw [hDecode, hEncode]
        exact hTarget.lazy link.id

end Schema

/-- An encoder gives back what the decoder of its schema has decoded, if both come to an end. -/
theorem encoder_restores_decoded {definitions : Definitions} {A : Assignment} {schema : Schema}
    (hDefinitions : definitions.Follow A) (hSchema : schema.Follows A)
    (hReencodable : schema.Reencodable definitions) {m n : Nat} {v w w' : Value} (hKeys : v.WellKeyed)
    (hFinite : v.Finite) (hDecoded : Interpreter.decoders.fresh definitions m schema v = some (.ok w))
    (hEncoded : Interpreter.encoders.fresh definitions n schema w = some w') : (w' == w) = true := by
  rw [Interpreter.fresh_eq Interpreter.decoders_faithful hDefinitions hSchema] at hDecoded
  rw [Interpreter.fresh_eq Interpreter.encoders_faithful hDefinitions hSchema] at hEncoded
  exact (schema.restores True hReencodable (.inl trivial)).whole hKeys hFinite hDecoded hEncoded

/-! ## Parcels

A parcel in a box keeps its tag, a parcel in a bag loses it. Both sides of the intersection have a label.
-/
namespace Parcels

def link : Link := ⟨"Parcel", 1, "Parcel"⟩

def box : Schema := .object
  [("kind", .literal [.str "box"]), ("label", .kind .string), ("inside", .nullable (.lazy link))]

def bag : Schema := .object [("label", .kind .string)]

def notes : Schema := .partialObject [("label", .kind .string), ("note", .kind .string)]

def schema : Schema := .inter (.tagged "kind" [("box", box), ("bag", bag)]) notes

def definitions : Definitions := [("Parcel", schema)]

def assignment : Assignment where
  target _ _ := "Parcel"
  body _ := schema

theorem schema_follows : schema.Follows assignment where
  links link hLink := by
    simp only [schema, box, bag, notes, Schema.links, Schema.linksNamed, List.append_nil, List.nil_append,
      List.mem_singleton] at hLink
    rw [hLink]
    rfl
  keyed e he := by
    simp [schema, box, bag, notes, Schema.keyed, Schema.keyedNamed] at he

theorem definitions_follow : definitions.Follow assignment := by
  intro e he
  cases List.mem_singleton.mp he
  exact schema_follows

theorem schema_recordFree : schema.RecordFree definitions :=
  .of_nodes (by simp [definitions, schema, box, bag, notes, Schema.nodes, Schema.nodesNamed])

theorem schema_reencodable : schema.Reencodable definitions where
  unions := .of_nodes (by simp [definitions, schema, box, bag, notes, Schema.nodes, Schema.nodesNamed])
  records := by
    have hNotes : notes.RecordFree definitions := schema_recordFree.part (List.mem_cons_of_mem _ List.mem_cons_self)
    apply Schema.Throughout.of_nodes
    simpa [definitions, schema, box, bag, notes, Schema.nodes, Schema.nodesNamed] using hNotes

def sent : Value := .obj [("kind", .str "box"), ("label", .str "a"), ("note", .str "fragile"),
  ("inside", .obj [("kind", .str "bag"), ("label", .str "b"), ("weight", .bool true)])]

def unpacked : Value := .obj [("kind", .str "box"), ("label", .str "a"),
  ("inside", .obj [("label", .str "b")]), ("note", .str "fragile")]

theorem sent_wellKeyed : sent.WellKeyed := by
  refine ⟨by decide, trivial, trivial, trivial, ⟨by decide, trivial, trivial, trivial, trivial⟩, trivial⟩

theorem sent_finite : sent.Finite := by simp [sent]

theorem unpacked_restored :
    Interpreter.decoders.fresh definitions 1 schema sent = some (.ok unpacked) ∧
      Interpreter.encoders.fresh definitions 1 schema unpacked = some unpacked ∧
      (unpacked == unpacked) = true := by
  have hDecoded : Interpreter.decoders.fresh definitions 1 schema sent = some (.ok unpacked) := rfl
  have hEncoded : Interpreter.encoders.fresh definitions 1 schema unpacked = some unpacked := rfl
  exact ⟨hDecoded, hEncoded, encoder_restores_decoded definitions_follow schema_follows schema_reencodable
    sent_wellKeyed sent_finite hDecoded hEncoded⟩

end Parcels

/-! ## Links that share a place and schemas that share a key

Of two links with one identifier and site a registry keeps the thunk of the first, and of two schemas with one key
a cache keeps the first. The decoder and the encoder of a schema need not come to them in the same order: an
encoder passes over a value that has lost its tag.
-/
namespace Misplaced

def inner (target : String) : Schema := .lazy ⟨"Inner", 0, target⟩

def definitions : Definitions := [
  ("First", .object [("inner", inner "Kept")]), ("Second", .object [("inner", inner "Dropped")]),
  ("Kept", .object [("text", .nullable (.kind .string))]), ("Dropped", .object [])]

def schema : Schema := .object [
  ("first", .tagged "tag" [("a", .lazy ⟨"First", 1, "First"⟩)]), ("second", .lazy ⟨"Second", 2, "Second"⟩)]

def input : Value := .obj [
  ("first", .obj [("tag", .str "a"), ("inner", .obj [("text", .str "s")])]),
  ("second", .obj [("inner", .obj [("text", .str "s")])])]

def decoded : Value := .obj [
  ("first", .obj [("inner", .obj [("text", .str "s")])]), ("second", .obj [("inner", .obj [("text", .str "s")])])]

def encoded : Value := .obj [
  ("first", .obj [("inner", .obj [("text", .str "s")])]), ("second", .obj [("inner", .obj [])])]

theorem schema_reencodable : schema.Reencodable definitions where
  unions := .of_nodes (by simp [definitions, schema, inner, Schema.nodes, Schema.nodesNamed])
  records := .of_nodes (by simp [definitions, schema, inner, Schema.nodes, Schema.nodesNamed])

theorem encoder_alters_decoded : schema.Reencodable definitions ∧ input.WellKeyed ∧ input.Finite ∧
    Interpreter.decoders.fresh definitions 2 schema input = some (.ok decoded) ∧
    Interpreter.encoders.fresh definitions 2 schema decoded = some encoded ∧ (encoded == decoded) = false := by
  have hKeys : input.WellKeyed := by
    simp [input, Value.WellKeyed, Value.WellKeyedEntries, Entries.keys]
  have hFinite : input.Finite := by simp [input]
  exact ⟨schema_reencodable, hKeys, hFinite, rfl, rfl, by decide⟩

def key : SchemaKey := ⟨"Outer", none⟩

/-- The two are told apart by their places, but both are made under one key. -/
def namesakes : Definitions := [
  ("First", .make (some key) (.object [("inner", .object [("text", .nullable (.kind .string))])])),
  ("Second", .make (some key) (.object [("inner", .object [])]))]

theorem namesakes_reencodable : schema.Reencodable namesakes where
  unions := .of_nodes (by simp [namesakes, schema, Schema.nodes, Schema.nodesNamed])
  records := .of_nodes (by simp [namesakes, schema, Schema.nodes, Schema.nodesNamed])

theorem encoder_alters_namesakes : schema.Reencodable namesakes ∧
    (∀ l ∈ schema.links ++ Schema.linksNamed namesakes, ∀ l' ∈ schema.links ++ Schema.linksNamed namesakes,
      l.id = l'.id → l.site = l'.site → l = l') ∧
    Interpreter.decoders.fresh namesakes 1 schema input = some (.ok decoded) ∧
    Interpreter.encoders.fresh namesakes 1 schema decoded = some encoded ∧ (encoded == decoded) = false :=
  ⟨namesakes_reencodable, by decide, rfl, rfl, by decide⟩

end Misplaced

end JsonShapes
