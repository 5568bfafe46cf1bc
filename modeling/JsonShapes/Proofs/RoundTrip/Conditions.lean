import JsonShapes.Proofs.RoundTrip.Kinds
import JsonShapes.Proofs.RoundTrip.Settling
import JsonShapes.Proofs.RoundTrip.Slots

/-! # Conditions for decoding what was decoded

Five ways to make a schema can prevent that a decoder accepts what it has decoded and leaves it as it is: a
property that is declared twice, members of a union that accept each other's values, operands of an
intersection that share properties, a tag that is not kept, and a refinement that looks at what is not kept.
Each of them has a condition here that looks at one schema and its parts. The conditions speak of runs; those on
properties, unions and tags follow from what is written in the schema.
-/
namespace JsonShapes
set_option autoImplicit false

theorem Value.get?_obj_ne_none_iff {entries : List (String × Value)} {k : String} :
    (obj entries).get? k ≠ none ↔ k ∈ Entries.keys entries :=
  (not_congr Entries.get?_eq_none_iff).trans not_not

namespace Schema

/-- The schema decodes `v` to `w`, under all bounds that are large enough. -/
def Decodes (definitions : Definitions) (s : Schema) (v w : Value) : Prop :=
  ∃ bound, s.decode definitions bound v = some (.ok w)

def Rejects (definitions : Definitions) (s : Schema) (v : Value) : Prop :=
  ∃ bound e, s.decode definitions bound v = some (.error e)

/-- Where a property is declared twice, every declaration accepts what the last one decodes a value to. -/
def Consistent (definitions : Definitions) (props : List (String × Schema)) : Prop :=
  ∀ e ∈ props, ∀ last, (Entries.ofList props).get? e.1 = some last → e.2 = last ∨
    ∀ v x w, v.WellKeyed → e.2.Decodes definitions v x → last.Decodes definitions v w →
      ∃ x', e.2.Decodes definitions w x'

/-- Members that are tried before the one that accepts a value reject again what it is decoded to, or decode
that to itself. -/
def Separate (definitions : Definitions) (members : List Schema) : Prop :=
  ∀ before member after, members = before ++ member :: after → ∀ v w, v.WellKeyed →
    (∀ s ∈ before, s.Rejects definitions v) → member.Decodes definitions v w →
    (∀ s ∈ before, s.Rejects definitions w) ∨ ∃ w', (union before).Decodes definitions w w' ∧ w'.Same w

/-- What was merged is decoded as the two values it was merged from would be. -/
def Compatible (definitions : Definitions) (left right : Schema) : Prop :=
  ∀ v a b x y, v.WellKeyed → left.Decodes definitions v a → right.Decodes definitions v b →
    left.Decodes definitions a x → right.Decodes definitions b y →
    ∃ w, (inter left right).Decodes definitions (a.merge b) w ∧ w.Same (x.merge y)

/-- Of several members with one name the last counts. -/
def TagKept (definitions : Definitions) (tag : String) (members : List (String × Schema)) : Prop :=
  ∀ name s, (Entries.ofList members).get? name = some s → ∀ v w, v.WellKeyed →
    v.get? tag = some (.str name) → s.Decodes definitions v w → w.get? tag ≠ none

/-- What is asked of a single way to make a schema. -/
def SteadyHere (definitions : Definitions) : Schema → Prop
  | object props | partialObject props => Consistent definitions props
  | union members => Separate definitions members
  | inter left right => Compatible definitions left right
  | tagged tag members => TagKept definitions tag members
  | refine of holds _ =>
    ∀ v w, v.WellKeyed → holds v = true → of.Decodes definitions v w → holds w = true
  | _ => True

def Steady (definitions : Definitions) (s : Schema) : Prop := s.Throughout definitions (SteadyHere definitions)

variable {definitions : Definitions}

theorem decodes_iff {s : Schema} {v w : Value} :
    s.Decodes definitions v w ↔ s.evaluate definitions v = some (.ok w) := evaluate_eq_some_iff.symm

theorem rejects_iff {s : Schema} {v : Value} :
    s.Rejects definitions v ↔ ∃ e, s.evaluate definitions v = some (.error e) := by
  simp only [Rejects, evaluate_eq_some_iff]
  exact exists_comm

theorem evaluate_projectedFrom {s : Schema} {v w : Value} (hKeys : v.WellKeyed)
    (h : s.evaluate definitions v = some (.ok w)) : v.ProjectedFrom w := by
  obtain ⟨bound, hRun⟩ := decodes_iff.mpr h
  exact decode_projectedFrom hKeys hRun

theorem evaluate_keepsNull (s : Schema) : (s.evaluate definitions).KeepsNull :=
  .of_projecting fun _ _ => evaluate_projectedFrom

theorem settles {s : Schema} {bound : Nat} (h : Returns (s.decode definitions bound) (s.evaluate definitions)) :
    Settles (s.decode definitions bound) (s.evaluate definitions) where
  lasting := evaluate_of_decode
  projecting := evaluate_projectedFrom
  returns := h

/-! ### Runs of single ways to make a schema -/

theorem evaluate_object (props : List (String × Schema)) : (object props).evaluate definitions =
    Check.object (props.map fun e => (e.1, e.2.evaluate definitions)) := by
  rw [evaluate, unfold, unfoldNamed_eq]
  rfl

theorem evaluate_partialObject (props : List (String × Schema)) : (partialObject props).evaluate definitions =
    Check.partialObject (props.map fun e => (e.1, e.2.evaluate definitions)) := by
  rw [evaluate, unfold, unfoldNamed_eq]
  rfl

theorem evaluate_tuple (slots : List Schema) : (tuple slots).evaluate definitions =
    Check.tuple (slots.map fun s => s.evaluate definitions) := by
  rw [evaluate, unfold, unfoldEach_eq]
  rfl

theorem evaluate_union (members : List Schema) : (union members).evaluate definitions =
    Check.union (members.map fun s => s.evaluate definitions) := by
  rw [evaluate, unfold, unfoldEach_eq]
  rfl

theorem evaluate_tagged (tag : String) (members : List (String × Schema)) :
    (tagged tag members).evaluate definitions =
      Check.tagged tag (members.map fun e => (e.1, e.2.evaluate definitions)) := by
  rw [evaluate, unfold, unfoldNamed_eq]
  rfl

theorem decodes_kind {k : Kind} {v w : Value} : (kind k).Decodes definitions v w ↔ v.kind = k ∧ w = v := by
  simp only [Decodes, decode_kind, Check.kind_eq_ok_iff, exists_const]

theorem decodes_nullable {or : Schema} {v w : Value} : (nullable or).Decodes definitions v w ↔
    (v = .null ∧ w = .null) ∨ (v ≠ .null ∧ or.Decodes definitions v w) := by
  simp only [decodes_iff]
  exact Check.nullable_eq_ok_iff

theorem decodes_union {members : List Schema} {v w : Value} (h : (union members).Decodes definitions v w) :
    ∃ s ∈ members, s.Decodes definitions v w := by
  rw [decodes_iff, evaluate_union] at h
  obtain ⟨before, _, after, hMembers, _, hRun⟩ := Check.union_eq_ok_iff.mp h
  have hMem := hMembers ▸ List.mem_append_right before (List.mem_cons_self (l := after))
  obtain ⟨s, hs, rfl⟩ := List.mem_map.mp hMem
  exact ⟨s, hs, decodes_iff.mpr hRun⟩

theorem decodes_inter {left right : Schema} {v w : Value} : (inter left right).Decodes definitions v w ↔
    ∃ a b, left.Decodes definitions v a ∧ right.Decodes definitions v b ∧ w = a.merge b := by
  simp only [decodes_iff]
  exact Check.inter_eq_ok_iff

theorem decodes_tagged {tag : String} {members : List (String × Schema)} {v w : Value}
    (h : (tagged tag members).Decodes definitions v w) : ∃ e ∈ members, e.2.Decodes definitions v w := by
  rw [decodes_iff, evaluate_tagged] at h
  obtain ⟨name, _, _, hMember, hRun⟩ := Check.tagged_eq_ok_iff.mp h
  obtain ⟨e, he, hName⟩ := List.mem_map.mp (Entries.mem_of_get?_ofList hMember)
  cases hName
  exact ⟨e, he, decodes_iff.mpr hRun⟩

theorem decodes_refine {of : Schema} {holds : Value → Bool} {expected : String} {v w : Value} :
    (refine of holds expected).Decodes definitions v w ↔ of.Decodes definitions v w ∧ holds v = true := by
  simp only [decodes_iff]
  change Check.andThen (of.evaluate definitions) (fun v w => if holds v then .ok w else
    Decoded.reject w expected) v = some (.ok w) ↔ _
  exact Check.andThen_choose_eq_ok_iff

theorem decodes_lazy {link : Link} {s : Schema} {v w : Value} (hFound : definitions.get? link.target = some s) :
    (lazy link).Decodes definitions v w ↔ s.Decodes definitions v w := by
  rw [decodes_iff, decodes_iff, evaluate_lazy link hFound]
  exact Check.lazy_eq_ok_iff

theorem Decodes.alone {name : String} {s : Schema} {v w : Value}
    (h : (object [(name, s)]).Decodes definitions v w) : ∃ x, w = .obj [(name, x)] := by
  rw [decodes_iff, evaluate_object] at h
  obtain ⟨_, fields, _, hEach, rfl⟩ := Check.object_eq_ok_iff.mp h
  cases hEach with
  | @cons _ field _ _ hHead hRest =>
    cases hRest
    exact ⟨field.2, congrArg (fun k => Value.obj [(k, field.2)]) hHead.1.symm⟩

theorem rejects_tagged {tag : String} {members : List (String × Schema)} {w : Value} (h : w.get? tag = none) :
    (tagged tag members).Rejects definitions w := by
  refine ⟨0, ?_⟩
  rw [decode_tagged]
  cases w with
  | obj E =>
    have h : Entries.get? E tag = none := h
    simp only [Check.tagged, h]
    exact ⟨_, rfl⟩
  | _ => exact ⟨_, rfl⟩

/-! ### Properties -/

theorem Consistent.agreeing {props : List (String × Schema)} (h : Consistent definitions props) :
    Agreeing (props.map fun e => (e.1, e.2.evaluate definitions)) := by
  intro _ hMem last hLast
  obtain ⟨e, he, rfl⟩ := List.mem_map.mp hMem
  rw [Entries.get?_ofList_map (fun _ s => evaluate definitions s)] at hLast
  obtain ⟨s, hs, rfl⟩ := Option.map_eq_some_iff.mp hLast
  refine (h e he s hs).imp (congrArg (evaluate definitions)) fun hAccepts v x w hKeys hx hw => ?_
  obtain ⟨x', hx'⟩ := hAccepts v x w hKeys (decodes_iff.mpr hx) (decodes_iff.mpr hw)
  exact ⟨x', decodes_iff.mp hx'⟩

/-- A property may be declared again with the same schema. -/
theorem Consistent.of_same {props : List (String × Schema)}
    (h : ∀ e ∈ props, ∀ e' ∈ props, e.1 = e'.1 → e.2 = e'.2) : Consistent definitions props :=
  fun e he last hLast => .inl (h e he (e.1, last) (Entries.mem_of_get?_ofList hLast) rfl)

theorem Consistent.of_nodup {props : List (String × Schema)} (h : (Entries.keys props).Nodup) :
    Consistent definitions props := by
  refine .of_same fun e he e' he' hName => ?_
  have hFound := Entries.get?_of_mem h he
  rw [hName, Entries.get?_of_mem h he'] at hFound
  exact (Option.some.inj hFound).symm

theorem Consistent.accommodates {props : List (String × Schema)} (h : Consistent definitions props)
    {e : String × Schema} (he : e ∈ props) {last : Schema} (hLast : (Entries.ofList props).get? e.1 = some last) :
    (e.2.evaluate definitions).Accommodates (last.evaluate definitions) := by
  intro v x w y hKeys hx hw hy
  rcases h e he last hLast with hSame | hAccepts
  · exact ⟨y, hSame ▸ hy⟩
  · obtain ⟨x', hx'⟩ := hAccepts v x w hKeys (decodes_iff.mpr hx) (decodes_iff.mpr hw)
    exact ⟨x', decodes_iff.mp hx'⟩

/-- The schema decodes objects property by property, and these are its declarations. -/
inductive Declares (definitions : Definitions) : List (String × Schema) → Schema → Prop
  | object (props : List (String × Schema)) : Declares definitions props (object props)
  | partialObject (props : List (String × Schema)) : Declares definitions props (partialObject props)
  | inter {ls rs : List (String × Schema)} {left right : Schema} : Declares definitions ls left →
    Declares definitions rs right → Declares definitions (ls ++ rs) (inter left right)
  | lazy {props : List (String × Schema)} {link : Link} {s : Schema} :
    definitions.get? link.target = some s → Declares definitions props s → Declares definitions props (lazy link)
  | make {props : List (String × Schema)} {s : Schema} (key : Option SchemaKey) :
    Declares definitions props s → Declares definitions props (make key s)

/-- The check is the decoder of the declared schema, or that of a property that may be missing. -/
def Reads (definitions : Definitions) (s : Schema) (check : Check Option) : Prop :=
  check = s.evaluate definitions ∨ check = Check.nullable (s.evaluate definitions)

theorem Reads.accommodates {s t : Schema} {check other : Check Option} (hs : s.Reads definitions check)
    (ht : t.Reads definitions other)
    (h : (s.evaluate definitions).Accommodates (t.evaluate definitions)) : check.Accommodates other := by
  have hLeft : check.Accommodates (t.evaluate definitions) := by
    rcases hs with rfl | rfl
    · exact h
    · exact h.nullable_left (evaluate_keepsNull t)
  rcases ht with rfl | rfl
  · exact hLeft
  · exact hLeft.nullable_right (evaluate_keepsNull t)

theorem Declares.slotted {props : List (String × Schema)} {s : Schema} (h : Declares definitions props s) :
    ∃ slots, Entries.Related (Reads definitions) props slots ∧ Check.Slotted slots (s.evaluate definitions) := by
  have hKeepsNull : ∀ (props : List (String × Schema)),
      ∀ e ∈ props.map fun e => (e.1, e.2.evaluate definitions), e.2.KeepsNull :=
    fun props => List.forall_mem_map.mpr fun e _ => evaluate_keepsNull e.2
  induction h with
  | object props =>
    rw [evaluate_object]
    refine ⟨_, ?_, .object (hKeepsNull props)⟩
    exact List.forall₂_map_right_iff.mpr (List.forall₂_same.mpr fun e _ => ⟨rfl, .inl rfl⟩)
  | partialObject props =>
    rw [evaluate_partialObject]
    refine ⟨_, ?_, .partialObject (hKeepsNull props)⟩
    rw [List.map_map]
    exact List.forall₂_map_right_iff.mpr (List.forall₂_same.mpr fun e _ => ⟨rfl, .inr rfl⟩)
  | inter _ _ ihLeft ihRight =>
    obtain ⟨ls, hls, hLeft⟩ := ihLeft
    obtain ⟨rs, hrs, hRight⟩ := ihRight
    exact ⟨ls ++ rs, List.rel_append hls hrs, hLeft.inter hRight⟩
  | @lazy _ link _ hFound _ ih =>
    obtain ⟨slots, hSlots, hSlotted⟩ := ih
    rw [evaluate_lazy link hFound]
    exact ⟨slots, hSlots, hSlotted.lazy link.id⟩
  | make _ _ ih => exact ih

theorem Declares.confined {props : List (String × Schema)} {s : Schema} (h : Declares definitions props s) :
    Check.Confined (· ∈ Entries.keys props) (s.evaluate definitions) := by
  induction h with
  | object props =>
    have hConfined := Check.Confined.object (props.map fun e => (e.1, e.2.evaluate definitions))
    rw [evaluate_object]
    simpa only [Entries.keys, List.map_map, Function.comp_def] using hConfined
  | partialObject props =>
    have hConfined := Check.Confined.partialObject (props.map fun e => (e.1, e.2.evaluate definitions))
    rw [evaluate_partialObject]
    simpa only [Entries.keys, List.map_map, Function.comp_def] using hConfined
  | inter _ _ ihLeft ihRight =>
    refine (ihLeft.inter ihRight).mono fun k hk => ?_
    rw [Entries.keys, List.map_append]
    exact List.mem_append.mpr hk
  | @lazy _ link _ hFound _ ih =>
    rw [evaluate_lazy link hFound]
    exact ih.lazy link.id
  | make _ _ ih => exact ih

/-- A property that is not declared is left out. -/
theorem Declares.absent {props : List (String × Schema)} {s : Schema} (h : Declares definitions props s)
    {v w : Value} {k : String} (hk : k ∉ Entries.keys props) (hw : s.Decodes definitions v w) : w.get? k = none := by
  obtain ⟨_, F, _, rfl, _, hKeys⟩ := h.confined.entries (decodes_iff.mp hw)
  exact Entries.get?_eq_none_iff.mpr fun hMem => hk (hKeys k hMem)

/-- One that is declared and there is kept. -/
theorem Declares.kept {props : List (String × Schema)} {s : Schema} (h : Declares definitions props s)
    {v w : Value} {k : String} (hk : k ∈ Entries.keys props) (hw : s.Decodes definitions v w)
    (hv : v.get? k ≠ none) : w.get? k ≠ none := by
  obtain ⟨slots, hSlots, hSlotted⟩ := h.slotted
  rw [decodes_iff] at hw
  obtain ⟨E, F, rfl, rfl, _⟩ := hSlotted.entries hw
  rw [Value.get?_obj_ne_none_iff] at hv ⊢
  exact hSlotted.kept hw (hSlots.keys_eq ▸ hk) hv

/-- Operands that keep to different names do not disturb each other, whatever they are made of. -/
theorem Compatible.of_confined {left right : Schema} {K L : String → Prop}
    (hLeft : Check.Confined K (left.evaluate definitions))
    (hRight : Check.Confined L (right.evaluate definitions)) (hApart : ∀ k, K k → ¬L k) :
    Compatible definitions left right := by
  intro v a b x y _ hA hB hX hY
  rw [decodes_iff] at hA hB hX hY
  obtain ⟨_, A, _, rfl, _, hKeys⟩ := hLeft.entries hA
  obtain ⟨_, B, _, rfl, hNodup, hKeys'⟩ := hRight.entries hB
  obtain ⟨hAgree, hAgree'⟩ := Entries.agreeOn_merge hApart hKeys hKeys' hNodup
  refine ⟨x.merge y, decodes_iff.mpr ?_, .refl _⟩
  exact Check.inter_eq_ok_iff.mpr ⟨x, y, hLeft.frame hAgree hX, hRight.frame hAgree' hY, rfl⟩

/-- Operands that could be written as one object with these properties are decoded together. The left one then
accepts of a property that both declare what the right one has made of it. -/
theorem Compatible.of_declares {left right : Schema} {ls rs : List (String × Schema)}
    (hLeft : left.Declares definitions ls) (hRight : right.Declares definitions rs)
    (h : Consistent definitions (ls ++ rs)) : Compatible definitions left right := by
  obtain ⟨lefts, hLefts, hLeft⟩ := hLeft.slotted
  obtain ⟨rights, hRights, hRight⟩ := hRight.slotted
  have hAccommodates : ∀ e ∈ lefts, ∀ last, (Entries.ofList rights).get? e.1 = some last →
      e.2.Accommodates last := by
    intro e he last hLast
    obtain ⟨d, hd, hName, hReads⟩ := forall₂_mem_right hLefts he
    obtain ⟨t, ht, hReads'⟩ := hRights.ofList.get?_right hLast
    refine hReads.accommodates hReads' (h.accommodates (List.mem_append_left _ hd) ?_)
    rw [Entries.get?_ofList_append, hName, ht, Option.some_or]
  intro v a b x y hKeys hA hB hX hY
  simp only [decodes_iff] at hA hB hX hY ⊢
  exact hLeft.again hRight hAccommodates hKeys hA hB hX hY

/-! ### Tags -/

/-- What the schema decodes an object to has something under `k` where the object has, links being followed. -/
inductive Keeps (definitions : Definitions) (k : String) : Schema → Prop
  | declared {props : List (String × Schema)} {s : Schema} : Declares definitions props s →
    k ∈ Entries.keys props → Keeps definitions k s
  | kind (kind : Kind) : Keeps definitions k (.kind kind)
  | literal (values : List Value) : Keeps definitions k (literal values)
  | record (of : Schema) : Keeps definitions k (record of)
  | nullable {or : Schema} : Keeps definitions k or → Keeps definitions k (nullable or)
  | union {members : List Schema} : (∀ s ∈ members, Keeps definitions k s) → Keeps definitions k (union members)
  | left {left : Schema} (right : Schema) : Keeps definitions k left → Keeps definitions k (inter left right)
  | right (left : Schema) {right : Schema} : Keeps definitions k right → Keeps definitions k (inter left right)
  | tagged {tag : String} {members : List (String × Schema)} : (∀ e ∈ members, Keeps definitions k e.2) →
    Keeps definitions k (tagged tag members)
  | refine {of : Schema} (holds : Value → Bool) (expected : String) : Keeps definitions k of →
    Keeps definitions k (refine of holds expected)
  | lazy {link : Link} {s : Schema} : definitions.get? link.target = some s → Keeps definitions k s →
    Keeps definitions k (lazy link)
  | make {s : Schema} (key : Option SchemaKey) : Keeps definitions k s → Keeps definitions k (make key s)

/-- What one operand has kept of an object is in the merged one. -/
theorem merge_keeps {v a b : Value} {k : String} (hv : v.get? k ≠ none) (ha : v.ProjectedFrom a)
    (hb : v.ProjectedFrom b) (h : a.get? k ≠ none ∨ b.get? k ≠ none) : (a.merge b).get? k ≠ none := by
  cases v with
  | obj V =>
    obtain ⟨A, rfl⟩ := ha.projection.exists_entries
    obtain ⟨B, rfl⟩ := hb.projection.exists_entries
    have hMerged : (Value.obj (Entries.merge A B)).get? k = (Entries.get? B k).or (Entries.get? A k) :=
      Entries.get?_merge hb.wellKeyed.1 A k
    rw [Value.merge, hMerged, Ne, Option.or_eq_none_iff, not_and_or]
    exact h.symm
  | _ => exact absurd rfl hv

theorem Keeps.get? {s : Schema} {k : String} (h : s.Keeps definitions k) {v w : Value} (hKeys : v.WellKeyed)
    (hw : s.Decodes definitions v w) (hv : v.get? k ≠ none) : w.get? k ≠ none := by
  induction h generalizing w with
  | declared hDeclares hk => exact hDeclares.kept hk hw hv
  | kind =>
    obtain ⟨_, rfl⟩ := decodes_kind.mp hw
    exact hv
  | literal =>
    obtain ⟨_, rfl⟩ := Check.literal_eq_ok_iff.mp (decodes_iff.mp hw)
    exact hv
  | record =>
    obtain ⟨E, _, rfl, _, rfl⟩ := Check.record_eq_ok_iff.mp (decodes_iff.mp hw)
    have hFields := Check.record_corresponds hKeys.1 (decodes_iff.mp hw)
    rw [Value.get?_obj_ne_none_iff] at hv ⊢
    exact hFields.mem_keys_iff.mpr hv
  | nullable _ ih =>
    rcases decodes_nullable.mp hw with ⟨rfl, _⟩ | ⟨_, hw⟩
    · exact absurd rfl hv
    · exact ih hw
  | union _ ih =>
    obtain ⟨s, hs, hw⟩ := decodes_union hw
    exact ih s hs hw
  | left _ _ ih =>
    obtain ⟨a, b, ha, hb, rfl⟩ := decodes_inter.mp hw
    exact merge_keeps hv (evaluate_projectedFrom hKeys (decodes_iff.mp ha))
      (evaluate_projectedFrom hKeys (decodes_iff.mp hb)) (.inl (ih ha))
  | right _ _ ih =>
    obtain ⟨a, b, ha, hb, rfl⟩ := decodes_inter.mp hw
    exact merge_keeps hv (evaluate_projectedFrom hKeys (decodes_iff.mp ha))
      (evaluate_projectedFrom hKeys (decodes_iff.mp hb)) (.inr (ih hb))
  | tagged _ ih =>
    obtain ⟨e, he, hw⟩ := decodes_tagged hw
    exact ih e he hw
  | refine _ _ _ ih => exact ih (decodes_refine.mp hw).1
  | lazy hFound _ ih => exact ih ((decodes_lazy hFound).mp hw)
  | make _ _ ih => exact ih hw

theorem TagKept.of_keeps {tag : String} {members : List (String × Schema)}
    (h : ∀ e ∈ members, e.2.Keeps definitions tag) : TagKept definitions tag members := by
  intro name s hMember v w hKeys hTag hw
  have hThere : v.get? tag ≠ none := by
    rw [hTag]
    exact Option.some_ne_none _
  exact (h _ (Entries.mem_of_get?_ofList hMember)).get? hKeys hw hThere

/-! ### Members of unions -/

/-- Whatever the later schema has decoded, the earlier one rejects. -/
def Apart (definitions : Definitions) (earlier later : Schema) : Prop :=
  ∀ v w, v.WellKeyed → later.Decodes definitions v w → earlier.Rejects definitions w

theorem Separate.of_pairwise {members : List Schema} (h : members.Pairwise (Apart definitions)) :
    Separate definitions members := by
  rintro before member after rfl v w hKeys _ hw
  refine .inl fun s hs => ?_
  exact (List.pairwise_append.mp h).2.2 s hs member List.mem_cons_self v w hKeys hw

/-- Decoding keeps the kind of a value. -/
theorem Apart.of_kinds {earlier later : Schema} (bound : Nat)
    (h : ∀ k ∈ later.kinds definitions bound, k ∉ earlier.kinds definitions bound) :
    Apart definitions earlier later := by
  intro v w hKeys hw
  rw [decodes_iff] at hw
  rw [rejects_iff]
  have hKind := (evaluate_projectedFrom hKeys hw).projection.kind_eq
  refine evaluate_rejectsOutside definitions bound earlier w (h _ (not_not.mp fun hOther => ?_))
  obtain ⟨e, he⟩ := evaluate_rejectsOutside definitions bound later v (hKind ▸ hOther)
  cases hw.symm.trans he

theorem Apart.of_tag {tag : String} {members props : List (String × Schema)} {later : Schema}
    (h : later.Declares definitions props) (hTag : tag ∉ Entries.keys props) :
    Apart definitions (tagged tag members) later := fun _ _ _ hw => rejects_tagged (h.absent hTag hw)

theorem Apart.refine {earlier of : Schema} (h : Apart definitions earlier of) (holds : Value → Bool)
    (expected : String) : Apart definitions earlier (refine of holds expected) :=
  fun v w hKeys hw => h v w hKeys (decodes_refine.mp hw).1

/-- Members of different kinds do not get in each other's way. -/
theorem Separate.of_kinds {members : List Schema} (bound : Nat) (h : members.Pairwise fun earlier later =>
    ∀ k ∈ later.kinds definitions bound, k ∉ earlier.kinds definitions bound) : Separate definitions members :=
  .of_pairwise (h.imp (Apart.of_kinds bound))

end Schema

end JsonShapes
