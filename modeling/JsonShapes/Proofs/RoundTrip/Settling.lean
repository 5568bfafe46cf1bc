import JsonShapes.Proofs.RoundTrip.Sameness

/-! # Checks that accept what they gave

When a check has succeeded and runs again on what it gave, each of its parts sees what it gave before, with
some exceptions: of a property that is declared twice only the last reading is kept, members of a union that
have rejected the input are asked again, the operands of an intersection see each other's properties, a tag
may be gone, and a refinement sees what it has not seen before. What the second run needs from these is an
assumption here. The first run may be bounded where the second is not.
-/
namespace JsonShapes
set_option autoImplicit false

/-- What the first check decodes a value to, the second one decodes to the same. -/
def Returns (first again : Check Option) : Prop :=
  ∀ v w, v.WellKeyed → first v = some (.ok w) → ∃ w', again w = some (.ok w') ∧ w'.Same w

/-- The first check may be the second one under a bound. -/
structure Settles (first again : Check Option) : Prop where
  lasting : ∀ {v r}, first v = some r → again v = some r
  projecting : ∀ {v w}, v.WellKeyed → again v = some (.ok w) → v.ProjectedFrom w
  returns : Returns first again

/-- Where a name is declared twice, every declaration accepts what the last one decodes a value to. -/
def Agreeing (checks : Entries (Check Option)) : Prop :=
  ∀ e ∈ checks, ∀ last, (Entries.ofList checks).get? e.1 = some last → e.2 = last ∨
    ∀ v x w, v.WellKeyed → e.2 v = some (.ok x) → last v = some (.ok w) → ∃ x', e.2 w = some (.ok x')

theorem Settles.nullable {first again : Check Option} (h : Settles first again) :
    Settles (Check.nullable first) (Check.nullable again) where
  lasting {v r} hRun := by
    cases v with
    | null => exact hRun
    | _ =>
      obtain ⟨result, hResult, hr⟩ := Option.bind_eq_some_iff.mp hRun
      exact Option.bind_eq_some_iff.mpr ⟨result, h.lasting hResult, hr⟩
  projecting hKeys hDecoded := by
    rcases Check.nullable_eq_ok_iff.mp hDecoded with ⟨rfl, rfl⟩ | ⟨_, hOr⟩
    · exact .refl hKeys
    · exact h.projecting hKeys hOr
  returns := by
    intro v w hKeys hDecoded
    rcases Check.nullable_eq_ok_iff.mp hDecoded with ⟨_, rfl⟩ | ⟨hNull, hOr⟩
    · exact ⟨.null, rfl, .refl _⟩
    · obtain ⟨w', hAgain, hSame⟩ := h.returns v w hKeys hOr
      have hOther : w ≠ .null := by
        rintro rfl
        exact hNull (h.projecting hKeys (h.lasting hOr)).projection.input_null
      exact ⟨w', Check.nullable_eq_ok_iff.mpr (.inr ⟨hOther, hAgain⟩), hSame⟩

theorem Agreeing.nullable {checks : Entries (Check Option)} (h : Agreeing checks) :
    Agreeing (checks.map fun e => (e.1, Check.nullable e.2)) := by
  intro _ hMem last hLast
  obtain ⟨e, he, rfl⟩ := List.mem_map.mp hMem
  rw [Entries.get?_ofList_map (fun _ => Check.nullable)] at hLast
  obtain ⟨c, hc, rfl⟩ := Option.map_eq_some_iff.mp hLast
  refine (h e he c hc).imp (congrArg Check.nullable) fun hAccepts v x w hKeys hx hw => ?_
  by_cases hNull : w = .null
  · subst hNull
    exact ⟨.null, rfl⟩
  · rcases Check.nullable_eq_ok_iff.mp hw with ⟨_, hw⟩ | ⟨hOther, hw⟩
    · exact absurd hw hNull
    · rcases Check.nullable_eq_ok_iff.mp hx with ⟨hv, _⟩ | ⟨_, hx⟩
      · exact absurd hv hOther
      · obtain ⟨x', hx'⟩ := hAccepts v x w hKeys hx hw
        exact ⟨x', Check.nullable_eq_ok_iff.mpr (.inr ⟨hNull, hx'⟩)⟩

namespace Returns
variable {first again left right leftAgain rightAgain : Check Option}

theorem verbatim (h : ∀ {v w}, first v = some (.ok w) → w = v) : Returns first first := by
  intro v w _ hDecoded
  cases h hDecoded
  exact ⟨v, hDecoded, .refl v⟩

section
variable {firsts agains : Entries (Check Option)}

/-- Every declaration of a name accepts what has been decoded under it. -/
theorem accepts (h : Entries.Related Settles firsts agains) (hAgreeing : Agreeing agains)
    {e : String × Check Option} (he : e ∈ agains) {raw w : Value} (hRaw : raw.WellKeyed)
    (hAll : ∀ c ∈ firsts, c.1 = e.1 → ∃ x, c.2 raw = some (.ok x))
    (hLast : ∀ c, (Entries.ofList firsts).get? e.1 = some c → c raw = some (.ok w)) :
    ∃ x, e.2 w = some (.ok x) := by
  obtain ⟨last, hFound⟩ : ∃ last, (Entries.ofList agains).get? e.1 = some last := by
    rw [← Entries.mem_keys_iff, Entries.mem_keys_ofList]
    exact List.mem_map_of_mem he
  obtain ⟨lastFirst, hFoundFirst, hSettles⟩ := h.ofList.get?_right hFound
  have hDecoded := hLast lastFirst hFoundFirst
  rcases hAgreeing e he last hFound with hSame | hAccepts
  · obtain ⟨x, hx, _⟩ := hSettles.returns raw w hRaw hDecoded
    exact ⟨x, hSame ▸ hx⟩
  · obtain ⟨c, hc, hName, hce⟩ := forall₂_mem_right h he
    obtain ⟨x, hx⟩ := hAll c hc hName
    exact hAccepts raw x w hRaw (hce.lasting hx) (hSettles.lasting hDecoded)

theorem object (h : Entries.Related Settles firsts agains) (hAgreeing : Agreeing agains) :
    Returns (Check.object firsts) (Check.object agains) := by
  intro v w hKeys hDecoded
  obtain ⟨V, decoded, rfl, _, rfl⟩ := Check.object_eq_ok_iff.mp hDecoded
  have hA := Check.object_corresponds hDecoded
  obtain ⟨fields, hAgain⟩ := Check.object_accepts_iff.mpr fun e he => by
    apply accepts h hAgreeing he (hKeys.property e.1)
    · intro c hc hName
      exact hName ▸ Check.object_accepts_iff.mp ⟨_, hDecoded⟩ c hc
    · intro c hc
      obtain ⟨x, hx, hRun⟩ := hA.left hc
      rw [hx]
      exact hRun
  have hB := Check.object_corresponds hAgain
  refine ⟨_, hAgain, .obj (fun k => ?_) fun k y x hy hx => ?_⟩
  · rw [hB.mem_keys_iff, hA.mem_keys_iff, h.ofList.keys_eq]
  · obtain ⟨c, hc, hRunAgain⟩ := hB.right hy
    obtain ⟨c', hc', hSettles⟩ := h.ofList.get?_right hc
    obtain ⟨x', hx', hRun⟩ := hA.left hc'
    cases hx.symm.trans hx'
    rw [hx] at hRunAgain
    obtain ⟨y', hy', hSame⟩ := hSettles.returns _ _ (hKeys.property k) hRun
    cases hRunAgain.symm.trans hy'
    exact hSame

theorem partialObject (h : Entries.Related Settles firsts agains) (hAgreeing : Agreeing agains) :
    Returns (Check.partialObject firsts) (Check.partialObject agains) := by
  intro v w hKeys hDecoded
  obtain ⟨V, decoded, rfl, _, rfl⟩ := Check.partialObject_eq_ok_iff.mp hDecoded
  have hA := Check.partialObject_corresponds hDecoded
  have hNullable : Entries.Related Settles (firsts.map fun e => (e.1, Check.nullable e.2))
      (agains.map fun e => (e.1, Check.nullable e.2)) := h.map fun _ _ hSettles => hSettles.nullable
  obtain ⟨fields, hAgain⟩ := Check.partialObject_accepts_iff.mpr fun e he w hw => by
    obtain ⟨raw, hRaw, hLast⟩ := Check.partialObject_origin hDecoded hw
    have hRawKeys := hKeys.property e.1
    rw [hRaw] at hRawKeys
    apply accepts hNullable hAgreeing.nullable (List.mem_map_of_mem he) hRawKeys
    · rintro _ hMem hName
      obtain ⟨c, hc, rfl⟩ := List.mem_map.mp hMem
      exact Check.partialObject_accepts_iff.mp ⟨_, hDecoded⟩ c hc raw (hName ▸ hRaw)
    · intro c hc
      rw [Entries.get?_ofList_map (fun _ => Check.nullable)] at hc
      obtain ⟨c', hc', rfl⟩ := Option.map_eq_some_iff.mp hc
      exact hLast c' hc'
  have hB := Check.partialObject_corresponds hAgain
  refine ⟨_, hAgain, .obj (fun k => ?_) fun k y x hy hx => ?_⟩
  · have hDeclared : k ∈ (Entries.ofList decoded).keys → k ∈ (Entries.ofList agains).keys := by
      rw [hA.mem_keys_iff, Entries.mem_keys_present, h.ofList.keys_eq]
      exact And.right
    rw [hB.mem_keys_iff, Entries.mem_keys_present]
    exact ⟨And.left, fun hk => ⟨hk, hDeclared hk⟩⟩
  · obtain ⟨_, hr, hRunAgain⟩ := hB.right hy
    rw [Entries.get?_present, hx] at hr
    obtain ⟨c, hc, rfl⟩ := Option.map_eq_some_iff.mp hr
    obtain ⟨c', hc', hSettles⟩ := h.ofList.get?_right hc
    obtain ⟨raw, hRaw, hLast⟩ := Check.partialObject_origin hDecoded hx
    have hRawKeys := hKeys.property k
    rw [hRaw] at hRawKeys
    obtain ⟨y', hy', hSame⟩ := hSettles.nullable.returns raw x hRawKeys (hLast c' hc')
    cases hRunAgain.symm.trans hy'
    exact hSame

end

theorem record (h : Settles first again) : Returns (Check.record first) (Check.record again) := by
  intro v w hKeys hDecoded
  obtain ⟨V, decoded, rfl, hEach, rfl⟩ := Check.record_eq_ok_iff.mp hDecoded
  have hA := Check.record_corresponds hKeys.1 hDecoded
  have hOrigin : ∀ {k x}, (Entries.ofList decoded).get? k = some x →
      ∃ x', again x = some (.ok x') ∧ x'.Same x := by
    intro k x hx
    obtain ⟨raw, hRaw, hRun⟩ := hA.right hx
    exact h.returns raw x (hKeys.2.mem _ (Entries.mem_of_get? hRaw)) hRun
  obtain ⟨fields, hFields⟩ : ∃ fields, Entries.Related (fun r a => r = some (.ok a))
      ((Entries.ofList decoded).map fun e => (e.1, again e.2)) fields := by
    apply Entries.exists_related
    intro _ hMem
    obtain ⟨e, he, rfl⟩ := List.mem_map.mp hMem
    obtain ⟨x', hx', _⟩ := hOrigin (Entries.get?_of_mem hA.nodup he)
    exact ⟨x', hx'⟩
  have hAgain := Check.record_eq_ok_iff.mpr ⟨_, fields, rfl, hFields, rfl⟩
  have hB := Check.record_corresponds hA.nodup hAgain
  refine ⟨_, hAgain, .obj (fun k => hB.mem_keys_iff) fun k y x hy hx => ?_⟩
  obtain ⟨x', hx', hRunAgain⟩ := hB.right hy
  cases hx.symm.trans hx'
  obtain ⟨y', hy', hSame⟩ := hOrigin hx
  cases hRunAgain.symm.trans hy'
  exact hSame

theorem array (h : Settles first again) : Returns (Check.array first) (Check.array again) := by
  intro v w hKeys hDecoded
  obtain ⟨items, decoded, rfl, hEach, rfl⟩ := Check.array_eq_ok_iff.mp hDecoded
  obtain ⟨back, hBack⟩ :
      ∃ back, List.Forall₂ (fun x y => again x = some (.ok y) ∧ y.Same x) decoded back := by
    apply exists_forall₂
    intro x hx
    obtain ⟨item, hItem, hRun⟩ := forall₂_mem_right hEach hx
    exact h.returns item x (Value.WellKeyedItems.mem hKeys item hItem) hRun
  refine ⟨_, Check.array_eq_ok_iff.mpr ⟨decoded, back, rfl, hBack.imp fun _ _ hxy => hxy.1, rfl⟩, ?_⟩
  obtain ⟨hLength, hBack⟩ := forall₂_getElem?_iff.mp hBack
  exact .arr hLength.symm fun i y x hy hx => (hBack i x y hx hy).2

theorem tuple {firsts agains : List (Check Option)} (h : List.Forall₂ Settles firsts agains) :
    Returns (Check.tuple firsts) (Check.tuple agains) := by
  intro v w hKeys hDecoded
  obtain ⟨items, decoded, rfl, _, hLength, hSlots, rfl⟩ := Check.tuple_eq_ok_iff.mp hDecoded
  obtain ⟨hSame, hParts⟩ := forall₂_getElem?_iff.mp h
  obtain ⟨back, hBack⟩ : ∃ back, List.Forall₂ (fun (slot : Check Option × Value) y =>
      slot.1 slot.2 = some (.ok y) ∧ y.Same slot.2) (agains.zip decoded) back := by
    apply exists_forall₂
    intro slot hSlot
    obtain ⟨i, hi⟩ := List.mem_iff_getElem?.mp hSlot
    obtain ⟨hAgain, hx⟩ := List.getElem?_zip_eq_some.mp hi
    obtain ⟨first, hFirst⟩ : ∃ first, firsts[i]? = some first :=
      ⟨_, List.getElem?_eq_getElem (hLength ▸ (List.getElem?_eq_some_iff.mp hx).1)⟩
    exact (hParts i first slot.1 hFirst hAgain).returns _ _ (hKeys.element i)
      (hSlots i first slot.2 hFirst hx)
  obtain ⟨hLengthBack, hBack⟩ := forall₂_getElem?_iff.mp hBack
  have hZip : (agains.zip decoded).length = decoded.length := by
    rw [List.length_zip, ← hSame, hLength, Nat.min_self]
  have hAgain : Check.tuple agains (.arr decoded) = some (.ok (.arr back)) := by
    refine Check.tuple_eq_ok_iff.mpr ⟨decoded, back, rfl, ?_, ?_, ?_, rfl⟩
    · exact Nat.le_of_eq (hLength.symm.trans hSame)
    · rw [← hSame, hLength, ← hZip, hLengthBack]
    · intro i again y hAgain hy
      obtain ⟨x, hx⟩ : ∃ x, decoded[i]? = some x :=
        ⟨_, List.getElem?_eq_getElem (hZip ▸ hLengthBack ▸ (List.getElem?_eq_some_iff.mp hy).1)⟩
      rw [hx]
      exact (hBack i (again, x) y (List.getElem?_zip_eq_some.mpr ⟨hAgain, hx⟩) hy).1
  refine ⟨_, hAgain, .arr (hLengthBack.symm.trans hZip) fun i y x hy hx => ?_⟩
  obtain ⟨again, hAgain⟩ : ∃ again, agains[i]? = some again :=
    ⟨_, List.getElem?_eq_getElem (hSame ▸ hLength ▸ (List.getElem?_eq_some_iff.mp hx).1)⟩
  exact (hBack i (again, x) y (List.getElem?_zip_eq_some.mpr ⟨hAgain, hx⟩) hy).2

/-- Members that reject the input do not get in the way if they reject what it was decoded to as well, or else
decode that to itself. -/
theorem union {firsts agains : List (Check Option)} (h : List.Forall₂ Settles firsts agains)
    (hEarlier : ∀ before member after, agains = before ++ member :: after → ∀ v w, v.WellKeyed →
      (∀ c ∈ before, ∃ e, c v = some (.error e)) → member v = some (.ok w) →
      (∀ c ∈ before, ∃ e, c w = some (.error e)) ∨
        ∃ w', Check.union before w = some (.ok w') ∧ w'.Same w) :
    Returns (Check.union firsts) (Check.union agains) := by
  intro v w hKeys hDecoded
  obtain ⟨before, member, after, rfl, hRejected, hRun⟩ := Check.union_eq_ok_iff.mp hDecoded
  obtain ⟨before', member', after', rfl, hBefore, hMember⟩ := forall₂_split h
  have hRejected' : ∀ c ∈ before', ∃ e, c v = some (.error e) := by
    intro c hc
    obtain ⟨first, hFirst, hSettles⟩ := forall₂_mem_right hBefore hc
    obtain ⟨e, he⟩ := hRejected first hFirst
    exact ⟨e, hSettles.lasting he⟩
  rcases hEarlier before' member' after' rfl v w hKeys hRejected' (hMember.lasting hRun) with
    hStill | ⟨w', hUnion, hSame⟩
  · obtain ⟨w', hAgain, hSame⟩ := hMember.returns v w hKeys hRun
    exact ⟨w', Check.union_eq_ok_iff.mpr ⟨before', member', after', rfl, hStill, hAgain⟩, hSame⟩
  · obtain ⟨before'', c, rest, rfl, hReject, hAgain⟩ := Check.union_eq_ok_iff.mp hUnion
    refine ⟨w', Check.union_eq_ok_iff.mpr ⟨before'', c, rest ++ member' :: after', ?_, hReject, hAgain⟩, hSame⟩
    rw [List.append_assoc, List.cons_append]

theorem inter (hLeft : Settles left leftAgain) (hRight : Settles right rightAgain)
    (hTogether : ∀ v a b x y, v.WellKeyed → leftAgain v = some (.ok a) → rightAgain v = some (.ok b) →
      leftAgain a = some (.ok x) → rightAgain b = some (.ok y) →
      ∃ w', Check.inter leftAgain rightAgain (a.merge b) = some (.ok w') ∧ w'.Same (x.merge y)) :
    Returns (Check.inter left right) (Check.inter leftAgain rightAgain) := by
  intro v w hKeys hDecoded
  obtain ⟨a, b, hA, hB, rfl⟩ := Check.inter_eq_ok_iff.mp hDecoded
  obtain ⟨x, hX, hSameLeft⟩ := hLeft.returns v a hKeys hA
  obtain ⟨y, hY, hSameRight⟩ := hRight.returns v b hKeys hB
  obtain ⟨w', hAgain, hSame⟩ :=
    hTogether v a b x y hKeys (hLeft.lasting hA) (hRight.lasting hB) hX hY
  have hKeysB := (hRight.projecting hKeys (hRight.lasting hB)).wellKeyed
  have hKeysY := (hRight.projecting hKeysB hY).wellKeyed
  exact ⟨w', hAgain, hSame.trans (hSameLeft.merge hSameRight hKeysY hKeysB)⟩

theorem tagged {tag : String} {firsts agains : Entries (Check Option)}
    (h : Entries.Related Settles firsts agains)
    (hKept : ∀ name c, (Entries.ofList agains).get? name = some c → ∀ v w, v.WellKeyed →
      v.get? tag = some (.str name) → c v = some (.ok w) → w.get? tag ≠ none) :
    Returns (Check.tagged tag firsts) (Check.tagged tag agains) := by
  intro v w hKeys hDecoded
  obtain ⟨name, c, hTag, hMember, hRun⟩ := Check.tagged_eq_ok_iff.mp hDecoded
  obtain ⟨c', hMember', hSettles⟩ := h.ofList.get?_left hMember
  obtain ⟨w', hAgain, hSame⟩ := hSettles.returns v w hKeys hRun
  have hProjected := hSettles.projecting hKeys (hSettles.lasting hRun)
  have hTagKept : w.get? tag = some (.str name) := by
    cases hFound : w.get? tag with
    | none => exact absurd hFound (hKept name c' hMember' v w hKeys hTag (hSettles.lasting hRun))
    | some x => rw [hProjected.projection.get?_str hTag hFound]
  exact ⟨w', Check.tagged_eq_ok_iff.mpr ⟨name, c', hTagKept, hMember', hAgain⟩, hSame⟩

theorem refine (h : Settles first again) {holds : Value → Bool} (expected : String)
    (hHolds : ∀ v w, v.WellKeyed → holds v = true → again v = some (.ok w) → holds w = true) :
    Returns (Check.andThen first fun v w => if holds v then .ok w else Decoded.reject w expected)
      (Check.andThen again fun v w => if holds v then .ok w else Decoded.reject w expected) := by
  intro v w hKeys hDecoded
  obtain ⟨hRun, hv⟩ := Check.andThen_choose_eq_ok_iff.mp hDecoded
  obtain ⟨w', hAgain, hSame⟩ := h.returns v w hKeys hRun
  have hw := hHolds v w hKeys hv (h.lasting hRun)
  exact ⟨w', Check.andThen_choose_eq_ok_iff.mpr ⟨hAgain, hw⟩, hSame⟩

theorem lazy (id : String) (h : Returns first again) : Returns (Check.lazy id first) (Check.lazy id again) := by
  intro v w hKeys hDecoded
  obtain ⟨w', hAgain, hSame⟩ := h v w hKeys (Check.lazy_eq_ok_iff.mp hDecoded)
  exact ⟨w', Check.lazy_eq_ok_iff.mpr hAgain, hSame⟩

end Returns

end JsonShapes
