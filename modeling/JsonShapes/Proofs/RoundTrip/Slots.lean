import JsonShapes.Proofs.RoundTrip.Frames
import JsonShapes.Proofs.RoundTrip.Sameness

/-! # Shapes that read property by property

Objects, partial objects and intersections of such shapes ask of every declared property alone whether it is
accepted, and give what its last declaration makes of it. Of two such shapes the operand on the left of an
intersection sees, when it is asked again, what the one on the right has made of the properties that both of
them declare. If each declaration on the left accepts that, the intersection decodes what it has given.
-/
namespace JsonShapes
set_option autoImplicit false

namespace Entries
variable {α : Type}

theorem get?_ofList_append (left right : List (String × α)) (name : String) :
    (ofList (left ++ right)).get? name = ((ofList right).get? name).or ((ofList left).get? name) := by
  simp only [get?_ofList, List.reverse_append, List.lookup_append]

end Entries

namespace Check

/-- Null is decoded to null, and nothing else is. -/
def KeepsNull (check : Check Option) : Prop :=
  ∀ v w, v.WellKeyed → check v = some (.ok w) → (v = .null ↔ w = .null)

/-- What the other check makes of a value that both accept, and accepts again, this one accepts as well. -/
def Accommodates (check other : Check Option) : Prop :=
  ∀ v x w y, v.WellKeyed → check v = some (.ok x) → other v = some (.ok w) → other w = some (.ok y) →
    ∃ x', check w = some (.ok x')

theorem KeepsNull.of_projecting {check : Check Option}
    (h : ∀ v w, v.WellKeyed → check v = some (.ok w) → v.ProjectedFrom w) : check.KeepsNull := by
  intro v w hKeys hRun
  have hProjection := (h v w hKeys hRun).projection
  constructor
  · rintro rfl
    exact hProjection.eq_null
  · rintro rfl
    exact hProjection.input_null

theorem KeepsNull.nullable {check : Check Option} (h : check.KeepsNull) : (nullable check).KeepsNull := by
  intro v w hKeys hRun
  rcases nullable_eq_ok_iff.mp hRun with ⟨rfl, rfl⟩ | ⟨_, hRun⟩
  · exact Iff.rfl
  · exact h v w hKeys hRun

theorem exists_nullable {check : Check Option} {v w : Value} (h : check v = some (.ok w)) :
    ∃ a, nullable check v = some (.ok a) := by
  by_cases hNull : v = .null
  · subst hNull
    exact ⟨.null, rfl⟩
  · exact ⟨w, nullable_eq_ok_iff.mpr (.inr ⟨hNull, h⟩)⟩

theorem Accommodates.nullable_left {check other : Check Option} (h : check.Accommodates other)
    (hOther : other.KeepsNull) : (nullable check).Accommodates other := by
  intro v x w y hKeys hx hw hy
  rcases nullable_eq_ok_iff.mp hx with ⟨hNull, _⟩ | ⟨_, hx⟩
  · cases (hOther v w hKeys hw).mp hNull
    exact ⟨.null, rfl⟩
  · obtain ⟨x', hx'⟩ := h v x w y hKeys hx hw hy
    exact exists_nullable hx'

theorem Accommodates.nullable_right {check other : Check Option} (h : check.Accommodates other)
    (hOther : other.KeepsNull) : check.Accommodates (nullable other) := by
  intro v x w y hKeys hx hw hy
  rcases nullable_eq_ok_iff.mp hw with ⟨rfl, rfl⟩ | ⟨hNull, hw⟩
  · exact ⟨x, hx⟩
  · rcases nullable_eq_ok_iff.mp hy with ⟨hNull', _⟩ | ⟨_, hy⟩
    · exact absurd ((hOther v w hKeys hw).mpr hNull') hNull
    · exact h v x w y hKeys hx hw hy

/-- The check reads objects property by property: `slots` are its declarations, each of which sees null where
the property is missing. -/
structure Slotted (slots : Entries (Check Option)) (check : Check Option) : Prop where
  entries : ∀ {v w}, check v = some (.ok w) → ∃ E F : Entries Value, v = .obj E ∧ w = .obj F ∧ F.keys.Nodup
  keepsNull : ∀ e ∈ slots, e.2.KeepsNull
  accepts_iff : ∀ {E : Entries Value}, (∃ F, check (.obj E) = some (.ok (.obj F))) ↔
    ∀ e ∈ slots, ∃ a, e.2 ((E.get? e.1).getD .null) = some (.ok a)
  origin : ∀ {E F : Entries Value} {k w}, check (.obj E) = some (.ok (.obj F)) → F.get? k = some w →
    ∃ last, (Entries.ofList slots).get? k = some last ∧ last ((E.get? k).getD .null) = some (.ok w)
  kept : ∀ {E F : Entries Value} {k}, check (.obj E) = some (.ok (.obj F)) → k ∈ slots.keys → k ∈ E.keys →
    k ∈ F.keys
  alike : ∀ {E E' F F' : Entries Value} {k}, check (.obj E) = some (.ok (.obj F)) →
    check (.obj E') = some (.ok (.obj F')) → E.get? k = E'.get? k → k ∈ F.keys → k ∈ F'.keys

namespace Slotted
variable {slots ls rs : Entries (Check Option)} {check left right : Check Option} {E E' F F' : Entries Value}
  {k : String}

theorem object {props : Entries (Check Option)} (h : ∀ e ∈ props, e.2.KeepsNull) :
    Slotted props (Check.object props) where
  entries hRun := by
    obtain ⟨E, F, hv, hw, hNodup, _⟩ := (Confined.object props).entries hRun
    exact ⟨E, F, hv, hw, hNodup⟩
  keepsNull := h
  accepts_iff := object_accepts_iff
  origin hRun hw := (object_corresponds hRun).right hw
  kept hRun hk _ := (object_corresponds hRun).mem_keys_iff.mpr (Entries.mem_keys_ofList.mpr hk)
  alike hRun hRun' _ hk := by
    rw [(object_corresponds hRun).mem_keys_iff] at hk
    exact (object_corresponds hRun').mem_keys_iff.mpr hk

theorem partialObject {props : Entries (Check Option)} (h : ∀ e ∈ props, e.2.KeepsNull) :
    Slotted (props.map fun e => (e.1, nullable e.2)) (Check.partialObject props) where
  entries hRun := by
    obtain ⟨E, F, hv, hw, hNodup, _⟩ := (Confined.partialObject props).entries hRun
    exact ⟨E, F, hv, hw, hNodup⟩
  keepsNull := List.forall_mem_map.mpr fun e he => (h e he).nullable
  accepts_iff {E} := by
    rw [partialObject_accepts_iff, List.forall_mem_map]
    refine forall₂_congr fun e _ => ?_
    cases E.get? e.1 with
    | none => exact iff_of_true (fun _ hRaw => nomatch hRaw) ⟨.null, rfl⟩
    | some raw => simp
  origin {E F k w} hRun hw := by
    obtain ⟨_, hPresent, _⟩ := (partialObject_corresponds hRun).right hw
    obtain ⟨_, c, _, hc, _⟩ := Entries.get?_present_eq_some_iff.mp hPresent
    obtain ⟨raw, hRaw, hLast⟩ := partialObject_origin hRun hw
    rw [Entries.get?_ofList_map (fun _ => nullable), hc, hRaw]
    exact ⟨_, rfl, hLast c hc⟩
  kept hRun hk hE := by
    rw [Entries.keys, List.map_map] at hk
    exact (partialObject_corresponds hRun).mem_keys_iff.mpr
      (Entries.mem_keys_present.mpr ⟨hE, Entries.mem_keys_ofList.mpr hk⟩)
  alike hRun hRun' hSame hk := by
    rw [(partialObject_corresponds hRun).mem_keys_iff, Entries.mem_keys_present, Entries.mem_keys_iff, hSame,
      ← Entries.mem_keys_iff] at hk
    exact (partialObject_corresponds hRun').mem_keys_iff.mpr (Entries.mem_keys_present.mpr hk)

theorem lazy (id : String) (h : Slotted slots check) : Slotted slots (Check.lazy id check) where
  entries hRun := h.entries (lazy_eq_ok_iff.mp hRun)
  keepsNull := h.keepsNull
  accepts_iff := by
    simp only [lazy_eq_ok_iff]
    exact h.accepts_iff
  origin hRun := h.origin (lazy_eq_ok_iff.mp hRun)
  kept hRun := h.kept (lazy_eq_ok_iff.mp hRun)
  alike hRun hRun' := h.alike (lazy_eq_ok_iff.mp hRun) (lazy_eq_ok_iff.mp hRun')

/-! What the declarations say of one property -/

theorem nodup (h : Slotted slots check) (hRun : check (.obj E) = some (.ok (.obj F))) : F.keys.Nodup := by
  obtain ⟨_, _, _, hF, hNodup⟩ := h.entries hRun
  cases hF
  exact hNodup

theorem accepts (h : Slotted slots check) (hRun : check (.obj E) = some (.ok (.obj F))) {e : String × Check Option}
    (he : e ∈ slots) : ∃ a, e.2 ((E.get? e.1).getD .null) = some (.ok a) :=
  h.accepts_iff.mp ⟨F, hRun⟩ e he

theorem accepts_last (h : Slotted slots check) (hRun : check (.obj E) = some (.ok (.obj F)))
    {last : Check Option} (hLast : (Entries.ofList slots).get? k = some last) :
    ∃ a, last ((E.get? k).getD .null) = some (.ok a) :=
  h.accepts hRun (Entries.mem_of_get?_ofList hLast)

theorem mem_slots (h : Slotted slots check) (hRun : check (.obj E) = some (.ok (.obj F))) (hk : k ∈ F.keys) :
    k ∈ slots.keys := by
  obtain ⟨w, hw⟩ := Entries.mem_keys_iff.mp hk
  obtain ⟨last, hLast, _⟩ := h.origin hRun hw
  exact Entries.mem_keys_ofList.mp (Entries.mem_keys_iff.mpr ⟨last, hLast⟩)

theorem get?_eq (h : Slotted slots check) (hRun : check (.obj E) = some (.ok (.obj F)))
    (hRun' : check (.obj E') = some (.ok (.obj F'))) (hSame : E.get? k = E'.get? k) : F.get? k = F'.get? k := by
  cases hw : F.get? k with
  | none =>
    refine (Entries.get?_eq_none_iff.mpr fun hk => ?_).symm
    exact Entries.get?_eq_none_iff.mp hw (h.alike hRun' hRun hSame.symm hk)
  | some w =>
    obtain ⟨w', hw'⟩ := Entries.mem_keys_iff.mp (h.alike hRun hRun' hSame (Entries.mem_keys_iff.mpr ⟨w, hw⟩))
    obtain ⟨last, hLast, hRead⟩ := h.origin hRun hw
    obtain ⟨last', hLast', hRead'⟩ := h.origin hRun' hw'
    cases hLast.symm.trans hLast'
    rw [hSame, hRead'] at hRead
    cases hRead
    exact hw'.symm

/-- What is missing or null is null if it is there at all. -/
theorem eq_null (h : Slotted slots check) (hRun : check (.obj E) = some (.ok (.obj F)))
    (hNull : (E.get? k).getD .null = .null) {w : Value} (hw : F.get? k = some w) : w = .null := by
  obtain ⟨last, hLast, hRead⟩ := h.origin hRun hw
  rw [hNull] at hRead
  exact (h.keepsNull _ (Entries.mem_of_get?_ofList hLast) .null w trivial hRead).mp rfl

/-! Intersections -/

theorem inter_inv (hLeft : Slotted ls left) (hRight : Slotted rs right)
    (h : Check.inter left right (.obj E) = some (.ok (.obj F))) :
    ∃ A B : Entries Value, left (.obj E) = some (.ok (.obj A)) ∧ right (.obj E) = some (.ok (.obj B)) ∧
      B.keys.Nodup ∧ F = A.merge B := by
  obtain ⟨_, _, hA, hB, hF⟩ := inter_eq_ok_iff.mp h
  obtain ⟨_, A, _, rfl, _⟩ := hLeft.entries hA
  obtain ⟨_, B, _, rfl, hNodup⟩ := hRight.entries hB
  exact ⟨A, B, hA, hB, hNodup, Value.obj.inj hF⟩

theorem inter (hLeft : Slotted ls left) (hRight : Slotted rs right) :
    Slotted (ls ++ rs) (Check.inter left right) where
  entries h := by
    obtain ⟨_, _, hA, hB, rfl⟩ := inter_eq_ok_iff.mp h
    obtain ⟨E, A, rfl, rfl, hNodup⟩ := hLeft.entries hA
    obtain ⟨_, B, _, rfl, _⟩ := hRight.entries hB
    exact ⟨E, _, rfl, rfl, Entries.nodup_keys_merge hNodup B⟩
  keepsNull := List.forall_mem_append.mpr ⟨hLeft.keepsNull, hRight.keepsNull⟩
  accepts_iff {E} := by
    rw [List.forall_mem_append, ← hLeft.accepts_iff, ← hRight.accepts_iff]
    constructor
    · rintro ⟨F, hRun⟩
      obtain ⟨A, B, hA, hB, _⟩ := hLeft.inter_inv hRight hRun
      exact ⟨⟨A, hA⟩, B, hB⟩
    · rintro ⟨⟨A, hA⟩, B, hB⟩
      exact ⟨Entries.merge A B, inter_eq_ok_iff.mpr ⟨_, _, hA, hB, rfl⟩⟩
  origin {E F k w} hRun hw := by
    obtain ⟨A, B, hA, hB, hNodup, rfl⟩ := hLeft.inter_inv hRight hRun
    rw [Entries.get?_merge hNodup] at hw
    rw [Entries.get?_ofList_append]
    rcases Option.or_eq_some_iff.mp hw with hw | ⟨hNone, hw⟩
    · obtain ⟨last, hLast, hRead⟩ := hRight.origin hB hw
      exact ⟨last, by rw [hLast, Option.some_or], hRead⟩
    · obtain ⟨first, hFirst, hRead⟩ := hLeft.origin hA hw
      cases hLast : (Entries.ofList rs).get? k with
      | none => exact ⟨first, by rw [hFirst, Option.none_or], hRead⟩
      | some last =>
        -- The right operand has left the property out, so it was missing, and both have made null of that.
        have hMissing : E.get? k = none := by
          refine Entries.get?_eq_none_iff.mpr fun hk => Entries.get?_eq_none_iff.mp hNone (hRight.kept hB ?_ hk)
          exact Entries.mem_keys_ofList.mp (Entries.mem_keys_iff.mpr ⟨last, hLast⟩)
        obtain ⟨a, ha⟩ := hRight.accepts_last hB hLast
        rw [hMissing] at ha ⊢
        cases hLeft.eq_null hA (by rw [hMissing]; rfl) hw
        cases (hRight.keepsNull _ (Entries.mem_of_get?_ofList hLast) .null a trivial ha).mp rfl
        exact ⟨last, rfl, ha⟩
  kept hRun hk hE := by
    obtain ⟨A, B, hA, hB, hNodup, rfl⟩ := hLeft.inter_inv hRight hRun
    rw [Entries.keys, List.map_append, List.mem_append] at hk
    exact (Entries.mem_keys_merge hNodup).mpr (hk.imp (hLeft.kept hA · hE) (hRight.kept hB · hE))
  alike hRun hRun' hSame hk := by
    obtain ⟨A, B, hA, hB, hNodup, rfl⟩ := hLeft.inter_inv hRight hRun
    obtain ⟨A', B', hA', hB', hNodup', rfl⟩ := hLeft.inter_inv hRight hRun'
    exact (Entries.mem_keys_merge hNodup').mpr
      (((Entries.mem_keys_merge hNodup).mp hk).imp (hLeft.alike hA hA' hSame) (hRight.alike hB hB' hSame))

/-! Decoding what was merged -/

section
variable {V A B X Y : Entries Value}

/-- What the left operand sees under a name is its own, or the right operand has made it of what both of them
have seen. -/
theorem left_accepts (hLeft : Slotted ls left) (hRight : Slotted rs right)
    (hAccommodates : ∀ e ∈ ls, ∀ last, (Entries.ofList rs).get? e.1 = some last → e.2.Accommodates last)
    (hKeys : (Value.obj V).WellKeyed) (hA : left (.obj V) = some (.ok (.obj A)))
    (hB : right (.obj V) = some (.ok (.obj B))) (hX : left (.obj A) = some (.ok (.obj X)))
    (hY : right (.obj B) = some (.ok (.obj Y))) :
    ∃ P, left (.obj (A.merge B)) = some (.ok (.obj P)) := by
  refine hLeft.accepts_iff.mpr fun e he => ?_
  rw [Entries.get?_merge (hRight.nodup hB)]
  cases hw : B.get? e.1 with
  | none => exact hLeft.accepts hX he
  | some w =>
    obtain ⟨last, hLast, hRead⟩ := hRight.origin hB hw
    obtain ⟨x, hx⟩ := hLeft.accepts hA he
    obtain ⟨y, hy⟩ := hRight.accepts_last hY hLast
    rw [hw] at hy
    exact hAccommodates e he last hLast _ x w y (hKeys.property e.1) hx hRead hy

/-- Where the right operand has left out what it declares, nothing was there, and no more than null is there now. -/
theorem null_of_left_out (hLeft : Slotted ls left) (hRight : Slotted rs right)
    (hA : left (.obj V) = some (.ok (.obj A))) (hB : right (.obj V) = some (.ok (.obj B))) (hk : k ∈ rs.keys)
    (hNone : B.get? k = none) : (A.get? k).getD .null = .null := by
  have hMissing : V.get? k = none :=
    Entries.get?_eq_none_iff.mpr fun hMem => Entries.get?_eq_none_iff.mp hNone (hRight.kept hB hk hMem)
  cases hw : A.get? k with
  | none => rfl
  | some w => exact hLeft.eq_null hA (by rw [hMissing]; rfl) hw

theorem right_accepts (hLeft : Slotted ls left) (hRight : Slotted rs right)
    (hA : left (.obj V) = some (.ok (.obj A))) (hB : right (.obj V) = some (.ok (.obj B)))
    (hY : right (.obj B) = some (.ok (.obj Y))) : ∃ Q, right (.obj (A.merge B)) = some (.ok (.obj Q)) := by
  refine hRight.accepts_iff.mpr fun e he => ?_
  obtain ⟨a, ha⟩ := hRight.accepts hY he
  rw [Entries.get?_merge (hRight.nodup hB)]
  cases hw : B.get? e.1 with
  | none =>
    rw [hw] at ha
    rw [Option.none_or, hLeft.null_of_left_out hRight hA hB (List.mem_map_of_mem he) hw]
    exact ⟨a, ha⟩
  | some w =>
    rw [hw] at ha
    exact ⟨a, ha⟩

/-- Under each name there is what the two operands make of their own results. -/
theorem get?_again (hLeft : Slotted ls left) (hRight : Slotted rs right) {P Q : Entries Value}
    (hA : left (.obj V) = some (.ok (.obj A))) (hB : right (.obj V) = some (.ok (.obj B)))
    (hX : left (.obj A) = some (.ok (.obj X))) (hY : right (.obj B) = some (.ok (.obj Y)))
    (hP : left (.obj (A.merge B)) = some (.ok (.obj P))) (hQ : right (.obj (A.merge B)) = some (.ok (.obj Q))) :
    (P.merge Q).get? k = (X.merge Y).get? k := by
  have hMerged := Entries.get?_merge (hRight.nodup hB) A k
  rw [Entries.get?_merge (hRight.nodup hQ), Entries.get?_merge (hRight.nodup hY)]
  cases hw : B.get? k with
  | some w =>
    have hBack : Q.get? k = Y.get? k := hRight.get?_eq hQ hY (by rw [hMerged, hw, Option.some_or])
    have hk : k ∈ B.keys := Entries.mem_keys_iff.mpr ⟨w, hw⟩
    obtain ⟨y, hy⟩ := Entries.mem_keys_iff.mp (hRight.kept hY (hRight.mem_slots hB hk) hk)
    rw [hBack, hy, Option.some_or, Option.some_or]
  | none =>
    rw [hw, Option.none_or] at hMerged
    have hBack : P.get? k = X.get? k := hLeft.get?_eq hP hX hMerged
    rw [hBack]
    cases hx : A.get? k with
    | none =>
      have hBack' : Q.get? k = Y.get? k := hRight.get?_eq hQ hY (by rw [hMerged, hx, hw])
      rw [hBack']
    | some a =>
      by_cases hk : k ∈ rs.keys
      · have hNull := hLeft.null_of_left_out hRight hA hB hk hw
        have hkA : k ∈ A.keys := Entries.mem_keys_iff.mpr ⟨a, hx⟩
        obtain ⟨x, hx'⟩ := Entries.mem_keys_iff.mp (hLeft.kept hX (hLeft.mem_slots hA hkA) hkA)
        -- Whatever is there on either side is null.
        have hOr : ∀ {o : Option Value}, (∀ w, o = some w → w = .null) → o.or (some .null) = some .null := by
          intro o hNull
          cases o with
          | none => rfl
          | some w => rw [hNull w rfl, Option.some_or]
        rw [hx', hLeft.eq_null hX hNull hx', hOr fun w => hRight.eq_null hQ (by rw [hMerged, hNull]),
          hOr fun w => hRight.eq_null hY (by rw [hw]; rfl)]
      · have hOut : Q.get? k = none := Entries.get?_eq_none_iff.mpr fun hMem => hk (hRight.mem_slots hQ hMem)
        have hOut' : Y.get? k = none := Entries.get?_eq_none_iff.mpr fun hMem => hk (hRight.mem_slots hY hMem)
        rw [hOut, hOut']

end

/-- Two shapes of which the left one accommodates the right one decode what they have given together. -/
theorem again (hLeft : Slotted ls left) (hRight : Slotted rs right)
    (hAccommodates : ∀ e ∈ ls, ∀ last, (Entries.ofList rs).get? e.1 = some last → e.2.Accommodates last)
    {v a b x y : Value} (hKeys : v.WellKeyed) (hA : left v = some (.ok a)) (hB : right v = some (.ok b))
    (hX : left a = some (.ok x)) (hY : right b = some (.ok y)) :
    ∃ w, Check.inter left right (a.merge b) = some (.ok w) ∧ w.Same (x.merge y) := by
  obtain ⟨V, A, rfl, rfl, _⟩ := hLeft.entries hA
  obtain ⟨_, B, _, rfl, _⟩ := hRight.entries hB
  obtain ⟨_, X, _, rfl, _⟩ := hLeft.entries hX
  obtain ⟨_, Y, _, rfl, _⟩ := hRight.entries hY
  obtain ⟨P, hP⟩ := hLeft.left_accepts hRight hAccommodates hKeys hA hB hX hY
  obtain ⟨Q, hQ⟩ := hLeft.right_accepts hRight hA hB hY
  have hEach : ∀ k, (Entries.merge P Q).get? k = (Entries.merge X Y).get? k :=
    fun _ => hLeft.get?_again hRight hA hB hX hY hP hQ
  refine ⟨.obj (Entries.merge P Q), inter_eq_ok_iff.mpr ⟨_, _, hP, hQ, rfl⟩, .obj (fun k => ?_) fun k p z hp hz => ?_⟩
  · rw [Entries.mem_keys_iff, Entries.mem_keys_iff, hEach]
  · rw [hEach, hz] at hp
    cases hp
    exact .refl p

end Slotted

end Check

end JsonShapes
