import JsonShapes.Proofs.Finite
import JsonShapes.Proofs.RoundTrip.Frames

/-! # Encoding what has been decoded

A check and a transform belong together when whatever the check has decoded is encoded to something that it
decodes to the very same value. The kind of the value must not change on the way, because null is treated
apart from everything else where a shape may be absent. Pairs that belong together make pairs that belong
together, provided that no property is declared twice, that what is merged has different properties and that
the members of a sum decode the tag they are chosen by.
-/
namespace JsonShapes
set_option autoImplicit false

/-- What the check decodes a value to is encoded to a value that it decodes to the same again. -/
def Retracts (check : Check Option) (transform : Transform Option) : Prop :=
  ∀ v a, v.Finite → check v = some (.ok a) →
    a.kind = v.kind ∧ ∃ e, transform a = some e ∧ e.kind = a.kind ∧ check e = some (.ok a)

theorem Value.ne_null_of_kind_eq {v w : Value} (h : v.kind = w.kind) (hw : w ≠ .null) : v ≠ .null := by
  rintro rfl
  cases w with
  | null => exact hw rfl
  | _ => cases h

namespace Retracts
variable {check left right : Check Option} {transform leftTo rightTo : Transform Option}

/-- The check lets values through as they are, and the conversion does not change them. -/
theorem converted {f : Value → Value} (h : ∀ {v w}, check v = some (.ok w) → w = v ∧ f v = v) :
    Retracts check (Transform.convert f) := by
  intro v a _ hDecoded
  obtain ⟨rfl, hSame⟩ := h hDecoded
  exact ⟨rfl, a, congrArg some hSame, rfl, hDecoded⟩

theorem float : Retracts Check.float (Transform.convert Value.orZero) := by
  intro v a hFinite hDecoded
  obtain ⟨x, hx, rfl⟩ := Check.float_eq_ok_iff.mp hDecoded
  cases v with
  | num n =>
    cases hx
    have hNumber : Value.ofFloat n.toFloat = .num (.float n.toFloat) := if_pos hFinite.number
    have hConverted : Value.orZero (.num (.float n.toFloat)) = .num (.float n.toFloat) := hNumber
    rw [hNumber] at hDecoded ⊢
    exact ⟨rfl, _, congrArg some hConverted, rfl, hDecoded⟩
  | _ => cases hx

theorem nullable (h : Retracts check transform) :
    Retracts (Check.nullable check) (Transform.nullable transform) := by
  intro v a hFinite hDecoded
  rcases Check.nullable_eq_ok_iff.mp hDecoded with ⟨rfl, rfl⟩ | ⟨hNull, hRun⟩
  · exact ⟨rfl, .null, rfl, rfl, rfl⟩
  · obtain ⟨hKind, e, hEncoded, hKind', hAgain⟩ := h v a hFinite hRun
    have ha := Value.ne_null_of_kind_eq hKind hNull
    have he := Value.ne_null_of_kind_eq hKind' ha
    refine ⟨hKind, e, ?_, hKind', ?_⟩
    · exact Transform.nullable_eq_some_iff.mpr (.inr ⟨ha, hEncoded⟩)
    · exact Check.nullable_eq_ok_iff.mpr (.inr ⟨he, hAgain⟩)

theorem record (h : Retracts check transform) : Retracts (Check.record check) (Transform.record transform) := by
  intro v a hFinite hDecoded
  obtain ⟨V, decoded, rfl, hEach, rfl⟩ := Check.record_eq_ok_iff.mp hDecoded
  have hValues : ∀ d ∈ Entries.ofList decoded, ∃ e, transform d.2 = some e ∧ check e = some (.ok d.2) := by
    intro d hd
    obtain ⟨_, hr, _, hRun⟩ := forall₂_mem_right hEach (Entries.mem_of_mem_ofList hd)
    obtain ⟨raw, hRaw, rfl⟩ := List.mem_map.mp hr
    obtain ⟨_, e, hEncoded, _, hAgain⟩ := h raw.2 d.2 (hFinite.part (List.mem_map_of_mem hRaw)) hRun
    exact ⟨e, hEncoded, hAgain⟩
  obtain ⟨encoded, hEncoded⟩ : ∃ encoded, Entries.Related
      (fun d e => transform d = some e ∧ check e = some (.ok d)) (Entries.ofList decoded) encoded :=
    Entries.exists_related hValues
  have hNodup := Entries.nodup_keys_ofList decoded
  have hNodup' : encoded.keys.Nodup := hEncoded.keys_eq ▸ hNodup
  refine ⟨rfl, .obj encoded, ?_, rfl, ?_⟩
  · refine Transform.record_eq_some_iff.mpr ⟨encoded, ?_, ?_⟩
    · exact List.forall₂_map_left_iff.mpr (hEncoded.imp fun _ _ hde => ⟨hde.1, hde.2.1⟩)
    · rw [Entries.ofList_of_nodup hNodup']
  · refine Check.record_eq_ok_iff.mpr ⟨encoded, Entries.ofList decoded, rfl, ?_, ?_⟩
    · exact List.forall₂_map_left_iff.mpr (hEncoded.flip.imp fun _ _ hde => ⟨hde.1.symm, hde.2.2⟩)
    · rw [Entries.ofList_of_nodup hNodup]

theorem array (h : Retracts check transform) : Retracts (Check.array check) (Transform.array transform) := by
  intro v a hFinite hDecoded
  obtain ⟨items, decoded, rfl, hEach, rfl⟩ := Check.array_eq_ok_iff.mp hDecoded
  obtain ⟨encoded, hEncoded⟩ : ∃ encoded, List.Forall₂
      (fun d e => transform d = some e ∧ check e = some (.ok d)) decoded encoded := by
    apply exists_forall₂
    intro d hd
    obtain ⟨item, hItem, hRun⟩ := forall₂_mem_right hEach hd
    obtain ⟨_, e, hEncoded, _, hAgain⟩ := h item d (hFinite.part hItem) hRun
    exact ⟨e, hEncoded, hAgain⟩
  refine ⟨rfl, .arr encoded, ?_, rfl, ?_⟩
  · exact Transform.array_eq_some_iff.mpr ⟨encoded, hEncoded.imp fun _ _ hde => hde.1, rfl⟩
  · exact Check.array_eq_ok_iff.mpr ⟨encoded, decoded, rfl, hEncoded.flip.imp fun _ _ hde => hde.2, rfl⟩

theorem slots {checks : List (Check Option)} {transforms : List (Transform Option)} {decoded : List Value}
    (h : List.Forall₂ Retracts checks transforms)
    (hDecoded : List.Forall₂ (fun c d => ∃ raw, raw.Finite ∧ c raw = some (.ok d)) checks decoded) :
    ∃ encoded, List.Forall₂ (fun (p : Value × Transform Option) e => p.2 p.1 = some e)
        (decoded.zip transforms) encoded ∧
      List.Forall₂ (fun (p : Check Option × Value) d => p.1 p.2 = some (.ok d)) (checks.zip encoded) decoded := by
  induction h generalizing decoded with
  | nil =>
    cases hDecoded
    exact ⟨[], .nil, .nil⟩
  | cons hHead _ ih =>
    cases hDecoded with
    | cons hFirst hRest =>
      obtain ⟨raw, hFinite, hRun⟩ := hFirst
      obtain ⟨_, e, hEncoded, _, hAgain⟩ := hHead raw _ hFinite hRun
      obtain ⟨encoded, hOthers, hOthersAgain⟩ := ih hRest
      exact ⟨e :: encoded, .cons hEncoded hOthers, .cons hAgain hOthersAgain⟩

theorem tuple {checks : List (Check Option)} {transforms : List (Transform Option)}
    (h : List.Forall₂ Retracts checks transforms) : Retracts (Check.tuple checks) (Transform.tuple transforms) := by
  intro v a hFinite hDecoded
  obtain ⟨items, decoded, rfl, _, hLength, hSlots, rfl⟩ := Check.tuple_eq_ok_iff.mp hDecoded
  have hEach : List.Forall₂ (fun c d => ∃ raw, raw.Finite ∧ c raw = some (.ok d)) checks decoded := by
    apply forall₂_getElem?_iff.mpr
    exact ⟨hLength, fun i c d hc hd => ⟨_, hFinite.element i, hSlots i c d hc hd⟩⟩
  obtain ⟨encoded, hEncoded, hAgain⟩ := slots h hEach
  have hZip : encoded.length = decoded.length := by
    rw [← hEncoded.length_eq, List.length_zip, ← h.length_eq, hLength, Nat.min_self]
  refine ⟨rfl, .arr encoded, Transform.tuple_eq_some_iff.mpr ⟨encoded, hEncoded, rfl⟩, rfl, ?_⟩
  refine Check.tuple_eq_ok_iff.mpr ⟨encoded, decoded, rfl, ?_, hLength, fun i c d hc hd => ?_, rfl⟩
  · exact Nat.le_of_eq (hZip.trans hLength.symm)
  · obtain ⟨e, he⟩ : ∃ e, encoded[i]? = some e :=
      ⟨_, List.getElem?_eq_getElem (hZip ▸ (List.getElem?_eq_some_iff.mp hd).1)⟩
    rw [he]
    exact (forall₂_getElem?_iff.mp hAgain).2 i (c, e) d (List.getElem?_zip_eq_some.mpr ⟨hc, he⟩) hd

theorem mapFailures (h : Retracts check transform) (f : Value → Failures String → Failures String) :
    Retracts (Check.mapFailures check f) transform := by
  intro v a hFinite hDecoded
  obtain ⟨hKind, e, hEncoded, hKind', hAgain⟩ := h v a hFinite (Check.mapFailures_eq_ok_iff.mp hDecoded)
  exact ⟨hKind, e, hEncoded, hKind', Check.mapFailures_eq_ok_iff.mpr hAgain⟩

theorem lazy (id : String) (h : Retracts check transform) : Retracts (Check.lazy id check) transform := by
  intro v a hFinite hDecoded
  obtain ⟨hKind, e, hEncoded, hKind', hAgain⟩ := h v a hFinite (Check.lazy_eq_ok_iff.mp hDecoded)
  exact ⟨hKind, e, hEncoded, hKind', Check.lazy_eq_ok_iff.mpr hAgain⟩

/-- The predicate sees the decoded value, which is the same both times. -/
theorem refine (h : Retracts check transform) (holds : Value → Bool) (expected : String) :
    Retracts (Check.andThen check fun _ w => if holds w then .ok w else Decoded.reject w expected) transform := by
  intro v a hFinite hDecoded
  obtain ⟨hRun, hHolds⟩ := Check.andThen_choose_eq_ok_iff.mp hDecoded
  obtain ⟨hKind, e, hEncoded, hKind', hAgain⟩ := h v a hFinite hRun
  exact ⟨hKind, e, hEncoded, hKind', Check.andThen_choose_eq_ok_iff.mpr ⟨hAgain, hHolds⟩⟩

/-! ## Objects -/

section
variable {α β : Type} {f : α → Check Option} {g : β → Transform Option}

/-- The induction is on the declarations: the first name is none of the others, so what stands under it is
seen by the first declaration alone. -/
theorem fields {props : Entries α} {props' : Entries β}
    (h : Entries.Related (fun c t => Retracts (f c) (g t)) props props') (hNames : props.keys.Nodup)
    (select : String → Option Value) (hFinite : ∀ {k raw}, select k = some raw → raw.Finite)
    {decoded : Entries Value} (hDecoded : Entries.Related (fun r a => r = some (.ok a))
      (props.filterMap fun p => (select p.1).map fun raw => (p.1, f p.2 raw)) decoded) :
    ∃ encoded, Entries.Related (fun r e => r = some e) (Entries.present decoded g props') encoded ∧
      Entries.Related (fun r a => r = some (.ok a)) (Entries.present encoded f props) decoded := by
  induction h generalizing decoded with
  | nil =>
    cases hDecoded
    exact ⟨[], .nil, .nil⟩
  | @cons p p' rest rest' hHead hRest ih =>
    obtain ⟨k, c⟩ := p
    obtain ⟨_, t⟩ := p'
    obtain ⟨rfl, hct⟩ := hHead
    obtain ⟨hNew, hRestNames⟩ := List.nodup_cons.mp hNames
    have hRelated : Entries.Related (fun c t => Retracts (f c) (g t)) rest rest' := hRest
    have hNew' : k ∉ Entries.keys rest' := hRelated.keys_eq ▸ hNew
    cases hSelected : select k with
    | none =>
      rw [List.filterMap_cons_none (by rw [hSelected]; rfl)] at hDecoded
      obtain ⟨encoded, hEncoded, hAgain⟩ := ih hRestNames hDecoded
      have hNone : decoded.get? k = none := by
        apply Entries.get?_eq_none_iff.mpr
        rw [← hAgain.keys_eq, Entries.mem_keys_present]
        exact fun hMem => hNew hMem.2
      have hNone' : encoded.get? k = none := by
        apply Entries.get?_eq_none_iff.mpr
        rw [← hEncoded.keys_eq, Entries.mem_keys_present]
        exact fun hMem => hNew' hMem.2
      refine ⟨encoded, ?_, ?_⟩
      · rwa [Entries.present_cons_of_none rest' hNone]
      · rwa [Entries.present_cons_of_none rest hNone']
    | some raw =>
      rw [List.filterMap_cons_some (by rw [hSelected]; rfl)] at hDecoded
      cases hDecoded with
      | @cons _ d _ decoded hFirst hOthers =>
        obtain ⟨_, a⟩ := d
        obtain ⟨rfl, hRun⟩ := hFirst
        obtain ⟨_, e, hEncoded, _, hAgain⟩ := hct raw a (hFinite hSelected) hRun
        obtain ⟨encoded, hEncodedRest, hAgainRest⟩ := ih hRestNames hOthers
        refine ⟨(k, e) :: encoded, ?_, ?_⟩
        · rw [Entries.present_cons_of_some rest' (by rw [Entries.get?_cons, if_pos rfl]),
            Entries.present_of_cons hNew']
          exact .cons ⟨rfl, hEncoded⟩ hEncodedRest
        · rw [Entries.present_cons_of_some rest (by rw [Entries.get?_cons, if_pos rfl]),
            Entries.present_of_cons hNew]
          exact .cons ⟨rfl, hAgain⟩ hAgainRest

end

theorem object {checks : Entries (Check Option)} {transforms : Entries (Transform Option)}
    (h : Entries.Related Retracts checks transforms) (hNames : checks.keys.Nodup) :
    Retracts (Check.object checks) (Transform.object transforms) := by
  intro v a hFinite hDecoded
  obtain ⟨V, decoded, rfl, hEach, rfl⟩ := Check.object_eq_ok_iff.mp hDecoded
  have hKeys : decoded.keys = checks.keys := by
    rw [← hEach.keys_eq, Entries.keys, List.map_map]
    rfl
  -- Every property that is declared is asked for, so it is there from now on.
  have hSlots := congrFun (List.filterMap_eq_map'
    (f := fun (p : String × Check Option) => (p.1, p.2 ((Entries.get? V p.1).getD .null)))) checks
  rw [← hSlots] at hEach
  obtain ⟨encoded, hEncoded, hAgain⟩ := fields (f := fun c => c) (g := fun t => t) h hNames
    (fun k => some ((Entries.get? V k).getD .null)) (fun {k _} hRaw => Option.some.inj hRaw ▸ hFinite.property k)
    hEach
  have hNames' : transforms.keys.Nodup := h.keys_eq ▸ hNames
  have hPresent : ∀ k ∈ transforms.keys, k ∈ decoded.keys := fun k hk => hKeys ▸ h.keys_eq ▸ hk
  have hPresent' : ∀ k ∈ checks.keys, k ∈ encoded.keys := by
    intro k hk
    rw [← hEncoded.keys_eq, Entries.mem_keys_present]
    exact ⟨hKeys ▸ hk, h.keys_eq ▸ hk⟩
  have hNodup : encoded.keys.Nodup := hEncoded.keys_eq ▸ Entries.nodup_keys_present hNames'
  rw [Entries.ofList_of_nodup (hKeys ▸ hNames)]
  refine ⟨rfl, .obj encoded, ?_, rfl, ?_⟩
  · refine Transform.object_eq_some_iff.mpr ⟨encoded, ?_, ?_⟩
    · rw [Value.entries, Entries.readings_eq_present (fun t => t) hPresent]
      exact hEncoded
    · rw [Entries.ofList_of_nodup hNodup]
  · refine Check.object_eq_ok_iff.mpr ⟨encoded, decoded, rfl, ?_, ?_⟩
    · rw [Entries.readings_eq_present (fun c => c) hPresent']
      exact hAgain
    · rw [Entries.ofList_of_nodup (hKeys ▸ hNames)]

theorem partialObject {checks : Entries (Check Option)} {transforms : Entries (Transform Option)}
    (h : Entries.Related Retracts checks transforms) (hNames : checks.keys.Nodup) :
    Retracts (Check.partialObject checks) (Transform.partialObject transforms) := by
  intro v a hFinite hDecoded
  obtain ⟨V, decoded, rfl, hEach, rfl⟩ := Check.partialObject_eq_ok_iff.mp hDecoded
  have hNullable : Entries.Related (fun c t => Retracts (Check.nullable c) (Transform.nullable t)) checks
      transforms := h.imp fun _ _ hct => ⟨hct.1, hct.2.nullable⟩
  obtain ⟨encoded, hEncoded, hAgain⟩ := fields hNullable hNames (Entries.get? V)
    (fun hRaw => hFinite.part (Value.mem_parts_of_get? hRaw)) hEach
  have hNodup : decoded.keys.Nodup := hEach.keys_eq ▸ Entries.nodup_keys_present hNames
  have hNodup' : encoded.keys.Nodup :=
    hEncoded.keys_eq ▸ Entries.nodup_keys_present (h.keys_eq ▸ hNames)
  rw [Entries.ofList_of_nodup hNodup]
  refine ⟨rfl, .obj encoded, ?_, rfl, ?_⟩
  · refine Transform.partialObject_eq_some_iff.mpr ⟨encoded, hEncoded, ?_⟩
    rw [Entries.ofList_of_nodup hNodup']
  · refine Check.partialObject_eq_ok_iff.mpr ⟨encoded, decoded, rfl, hAgain, ?_⟩
    rw [Entries.ofList_of_nodup hNodup]

/-- Each operand finds its own part again in what was merged, on both ways. -/
theorem inter {K L : String → Prop} (hLeft : Retracts left leftTo) (hRight : Retracts right rightTo)
    (hLeftIn : left.Confined K) (hLeftTo : leftTo.Confined K) (hRightIn : right.Confined L)
    (hRightTo : rightTo.Confined L) (hApart : ∀ k, K k → ¬L k) :
    Retracts (Check.inter left right) (Transform.inter leftTo rightTo) := by
  intro v a hFinite hDecoded
  obtain ⟨x, y, hX, hY, rfl⟩ := Check.inter_eq_ok_iff.mp hDecoded
  obtain ⟨_, d, hD, _, hAgainLeft⟩ := hLeft v x hFinite hX
  obtain ⟨_, e, hE, _, hAgainRight⟩ := hRight v y hFinite hY
  obtain ⟨V, A, rfl, rfl, _, hKeysA⟩ := hLeftIn.entries hX
  obtain ⟨_, B, _, rfl, hNodupB, hKeysB⟩ := hRightIn.entries hY
  obtain ⟨D, rfl, _, hKeysD⟩ := hLeftTo.entries hD
  obtain ⟨E, rfl, hNodupE, hKeysE⟩ := hRightTo.entries hE
  obtain ⟨hDecodedLeft, hDecodedRight⟩ := Entries.agreeOn_merge hApart hKeysA hKeysB hNodupB
  obtain ⟨hEncodedLeft, hEncodedRight⟩ := Entries.agreeOn_merge hApart hKeysD hKeysE hNodupE
  refine ⟨rfl, .obj (Entries.merge D E), ?_, rfl, ?_⟩
  · exact Transform.inter_eq_some_iff.mpr
      ⟨_, _, hLeftTo.frame hDecodedLeft hD, hRightTo.frame hDecodedRight hE, rfl⟩
  · exact Check.inter_eq_ok_iff.mpr
      ⟨_, _, hLeftIn.frame hEncodedLeft hAgainLeft, hRightIn.frame hEncodedRight hAgainRight, rfl⟩

theorem tagged {tag : String} {checks : Entries (Check Option)} {transforms : Entries (Transform Option)}
    (h : Entries.Related Retracts checks transforms)
    (hTag : ∀ name c, (Entries.ofList checks).get? name = some c → ∀ {v w}, c v = some (.ok w) →
      v.get? tag = some (.str name) ∧ w.get? tag = some (.str name)) :
    Retracts (Check.tagged tag checks) (Transform.tagged tag transforms) := by
  intro v a hFinite hDecoded
  obtain ⟨name, c, _, hMember, hRun⟩ := Check.tagged_eq_ok_iff.mp hDecoded
  obtain ⟨t, hMember', hct⟩ := h.ofList.get?_left hMember
  obtain ⟨hKind, e, hEncoded, hKind', hAgain⟩ := hct v a hFinite hRun
  have hDecodedTag := (hTag name c hMember hRun).2
  have hEncodedTag := (hTag name c hMember hAgain).1
  refine ⟨hKind, e, ?_, hKind', Check.tagged_eq_ok_iff.mpr ⟨name, c, hEncodedTag, hMember, hAgain⟩⟩
  rw [Transform.tagged, hDecodedTag]
  simp only [Option.bind_some, Value.string?, hMember']
  exact hEncoded

end Retracts

/-- A literal that is declared stands in what is accepted and in what is given. -/
theorem Check.object_literal {checks : Entries (Check Option)} (hNames : checks.keys.Nodup) {k s : String}
    (hLiteral : (k, Check.literal [.str s]) ∈ checks) {v w : Value}
    (h : Check.object checks v = some (.ok w)) : v.get? k = some (.str s) ∧ w.get? k = some (.str s) := by
  obtain ⟨V, decoded, rfl, _, rfl⟩ := object_eq_ok_iff.mp h
  have hDecoded := object_corresponds h
  rw [Entries.ofList_of_nodup hNames] at hDecoded
  obtain ⟨w, hw, hRun⟩ := hDecoded.left (Entries.get?_of_mem hNames hLiteral)
  obtain ⟨hMem, rfl⟩ := literal_eq_ok_iff.mp hRun
  cases hFound : Entries.get? V k with
  | none =>
    rw [hFound] at hMem
    cases hMem
  | some raw =>
    rw [hFound] at hMem hw
    have hSame : raw = .str s := by
      cases raw with
      | str s' =>
        have hEqual : (Value.str s' == .str s) = true := by simpa using hMem
        have hStrings : (s' == s) = true := hEqual
        rw [eq_of_beq hStrings]
      | _ => cases hMem
    rw [hSame] at hFound hw
    exact ⟨hFound, hw⟩

end JsonShapes
