import JsonShapes.Proofs.Successes
import JsonShapes.Proofs.WellKeyed

/-! # Transforms that are done again

What a transform has written is of the declared shape, so transforming it again changes nothing. Where a transform
picks its way by a tag this is not enough: it must not pick another way the second time. But no transform makes a
string of anything else, or one string of another, so whatever tags are left are those of the value.

A name that is declared repeatedly is transformed by each of its declarations although only the last one counts.
The second time all of them are given what the last one has made, and those that do not count may fail to end on it.
-/
namespace JsonShapes
set_option autoImplicit false

namespace Entries
variable {α β : Type}

theorem eq_of_get? {as bs : Entries α} (hKeys : as.keys = bs.keys) (hNodup : as.keys.Nodup)
    (h : ∀ name a b, as.get? name = some a → bs.get? name = some b → a = b) : as = bs := by
  induction as generalizing bs with
  | nil => exact (List.map_eq_nil_iff.mp hKeys.symm).symm
  | cons e rest ih =>
    cases bs with
    | nil => cases hKeys
    | cons e' rest' =>
      obtain ⟨k, a⟩ := e
      obtain ⟨k', b⟩ := e'
      obtain ⟨rfl, hRest⟩ := List.cons.inj hKeys
      obtain ⟨hNew, hNodup⟩ := List.nodup_cons.mp hNodup
      have hHead : a = b := by
        apply h k
        · rw [get?_cons, if_pos rfl]
        · rw [get?_cons, if_pos rfl]
      have hTail : rest = rest' := by
        refine ih hRest hNodup fun name x y hx hy => ?_
        have hName : name ≠ k := fun hSame => hNew (hSame ▸ mem_keys_iff.mpr ⟨x, hx⟩)
        apply h name
        · rwa [get?_cons, if_neg hName]
        · rwa [get?_cons, if_neg hName]
      rw [hHead, hTail]

theorem keys_present (values : Entries Value) (f : α → Value → β) (props : Entries α) :
    (present values f props).keys = props.keys.filter fun name => (values.get? name).isSome := by
  induction props with
  | nil => rfl
  | cons p rest ih =>
    have hKeys : keys (p :: rest) = p.1 :: keys rest := rfl
    rw [hKeys, List.filter_cons, ← ih, present, List.filterMap_cons]
    cases values.get? p.1 <;> rfl

theorem get?_ofList_mapValues_eq_some {f : α → β} {entries : Entries α} {name : String} {b : β}
    (h : (ofList (mapValues f entries)).get? name = some b) :
    ∃ a, (ofList entries).get? name = some a ∧ (name, a) ∈ entries ∧ f a = b := by
  rw [← mapValues_ofList, get?_mapValues] at h
  obtain ⟨a, ha, hb⟩ := Option.map_eq_some_iff.mp h
  exact ⟨a, ha, mem_of_get?_ofList ha, hb⟩

theorem exists_related_iff {R : α → β → Prop} {as : Entries α} :
    (∃ bs, Related R as bs) ↔ ∀ a ∈ as, ∃ b, R a.2 b := by
  refine ⟨?_, exists_related⟩
  rintro ⟨bs, hRelated⟩ a ha
  obtain ⟨b, _, _, hab⟩ := forall₂_mem_left hRelated ha
  exact ⟨b.2, hab⟩

end Entries

namespace Value

theorem WellKeyed.entries {v : Value} (h : v.WellKeyed) : (obj v.entries).WellKeyed := by
  cases v with
  | obj _ => exact h
  | _ => exact ⟨List.nodup_nil, trivial⟩

theorem WellKeyed.entry {v raw : Value} (h : v.WellKeyed) {name : String}
    (hFound : Entries.get? v.entries name = some raw) : raw.WellKeyed :=
  h.entries.2.mem _ (Entries.mem_of_get? hFound)

theorem WellKeyed.items {v : Value} (h : v.WellKeyed) : ∀ item ∈ v.items, item.WellKeyed := by
  cases v with
  | arr _ => exact WellKeyedItems.mem h
  | _ => exact List.forall_mem_nil _

theorem get?_eq_some_iff {v w : Value} {name : String} :
    v.get? name = some w ↔ Entries.get? v.entries name = some w := by
  cases v <;> rfl

theorem get?_of_property {v : Value} {name s : String} (h : (Entries.get? v.entries name).getD null = str s) :
    v.get? name = some (str s) := by
  rw [get?_eq_some_iff]
  cases hFound : Entries.get? v.entries name with
  | none =>
    rw [hFound] at h
    cases h
  | some raw =>
    rw [hFound] at h
    exact congrArg some h

/-- What is declared for the tag of the value, if there is such a tag. -/
def picked? {τ : Type} (tag : String) (es : Entries τ) (v : Value) : Option τ :=
  ((v.get? tag).bind string?).bind (Entries.ofList es).get?

theorem picked?_eq_some_iff {τ : Type} {tag : String} {es : Entries τ} {v : Value} {a : τ} :
    v.picked? tag es = some a ↔ ∃ name, v.get? tag = some (str name) ∧ (Entries.ofList es).get? name = some a := by
  have hString : ∀ {raw : Value} {name : String}, raw.string? = some name ↔ raw = str name := by
    intro raw name
    cases raw <;> simp [string?]
  rw [picked?, Option.bind_eq_some_iff]
  simp only [Option.bind_eq_some_iff, hString, exists_eq_right]

end Value

namespace Transform
variable {v w : Value}

/-! ## Declared properties

What is declared under a name may be declared repeatedly: all of the declarations have to end, and the last one is
the one that counts.
-/

section
variable {τ : Type} {es : Entries τ} {f : τ → Transform Option} {fields : Entries Value} {name : String} {a : Value}

theorem object_ends_iff : (∃ w, object (es.mapValues f) v = some w) ↔
    ∀ e ∈ es, ∃ a, f e.2 ((Entries.get? v.entries e.1).getD .null) = some a := by
  have hSlots : (es.mapValues f).map (fun p => (p.1, p.2 ((Entries.get? v.entries p.1).getD .null))) =
      es.map fun e => (e.1, f e.2 ((Entries.get? v.entries e.1).getD .null)) := List.map_map
  simp only [object_eq_some_iff, hSlots]
  rw [exists_comm]
  simp only [exists_and_left, exists_eq, and_true, Entries.exists_related_iff, List.forall_mem_map]

theorem object_keys (h : object (es.mapValues f) v = some (.obj fields)) : fields.keys = es.keys.eraseDups := by
  obtain ⟨encoded, hEncoded, hFields⟩ := Iff.mp object_eq_some_iff h
  cases hFields
  rw [Entries.keys_ofList, ← Entries.keys_mapValues f]
  have hKeys := hEncoded.keys_eq
  rw [Entries.keys, List.map_map] at hKeys
  exact congrArg List.eraseDups hKeys.symm

theorem object_field (h : object (es.mapValues f) v = some (.obj fields)) (ha : fields.get? name = some a) :
    ∃ last, (Entries.ofList es).get? name = some last ∧ (name, last) ∈ es ∧
      f last ((Entries.get? v.entries name).getD .null) = some a := by
  have hEntries : object (es.mapValues f) (.obj v.entries) = some (.obj fields) := h
  obtain ⟨_, hSame, hFields⟩ := object_corresponds hEntries
  cases hSame
  obtain ⟨_, hDeclared, hField⟩ := hFields.right ha
  obtain ⟨last, hLast, hMem, rfl⟩ := Entries.get?_ofList_mapValues_eq_some hDeclared
  exact ⟨last, hLast, hMem, hField⟩

theorem partialObject_ends_iff : (∃ w, partialObject (es.mapValues f) v = some w) ↔
    ∀ e ∈ es, ∀ raw, Entries.get? v.entries e.1 = some raw → ∃ a, nullable (f e.2) raw = some a := by
  simp only [partialObject_eq_some_iff]
  rw [exists_comm]
  simp only [exists_and_left, exists_eq, and_true, Entries.exists_related_iff]
  constructor
  · intro h e he raw hRaw
    refine h (e.1, nullable (f e.2) raw) (List.mem_filterMap.mpr ⟨_, List.mem_map_of_mem he, ?_⟩)
    rw [hRaw]
    rfl
  · intro h slot hSlot
    obtain ⟨p, hp, hSlot⟩ := List.mem_filterMap.mp hSlot
    obtain ⟨e, he, rfl⟩ := List.mem_map.mp hp
    obtain ⟨raw, hRaw, rfl⟩ := Option.map_eq_some_iff.mp hSlot
    exact h e he raw hRaw

theorem partialObject_keys (h : partialObject (es.mapValues f) v = some (.obj fields)) :
    fields.keys = (es.keys.filter fun name => (Entries.get? v.entries name).isSome).eraseDups := by
  obtain ⟨encoded, hEncoded, hFields⟩ := Iff.mp partialObject_eq_some_iff h
  cases hFields
  rw [Entries.keys_ofList, ← Entries.keys_mapValues f, ← Entries.keys_present v.entries nullable, hEncoded.keys_eq]
  rfl

theorem partialObject_field (h : partialObject (es.mapValues f) v = some (.obj fields))
    (ha : fields.get? name = some a) : ∃ raw last, Entries.get? v.entries name = some raw ∧
      (Entries.ofList es).get? name = some last ∧ (name, last) ∈ es ∧ nullable (f last) raw = some a := by
  have hEntries : partialObject (es.mapValues f) (.obj v.entries) = some (.obj fields) := h
  obtain ⟨_, hSame, hFields⟩ := partialObject_corresponds hEntries
  cases hSame
  obtain ⟨_, hPresent, hField⟩ := hFields.right ha
  obtain ⟨raw, _, hRaw, hDeclared, rfl⟩ := Entries.get?_present_eq_some_iff.mp hPresent
  obtain ⟨last, hLast, hMem, rfl⟩ := Entries.get?_ofList_mapValues_eq_some hDeclared
  exact ⟨raw, last, hRaw, hLast, hMem, hField⟩

theorem tuple_items_iff {slots : List τ} : tuple (slots.map f) v = some w ↔
    ∃ encoded, List.Forall₂ (fun p a => f p.2 p.1 = some a) (v.items.zip slots) encoded ∧ w = .arr encoded := by
  rw [tuple_eq_some_iff, List.zip_map_right]
  simp only [List.forall₂_map_left_iff]
  rfl

/-- A member for every tag that is declared, and otherwise the value as it is. -/
theorem tagged_eq_some_iff {tag : String} : tagged tag (es.mapValues f) v = some w ↔
    (v.picked? tag es = none ∧ w = v) ∨ ∃ e ∈ es, v.picked? tag es = some e.2 ∧ f e.2 v = some w := by
  have hPicked : ((v.get? tag).bind Value.string?).bind (Entries.get? (Entries.ofList (es.mapValues f))) =
      (v.picked? tag es).map f := by
    rw [Value.picked?, Option.map_bind, ← Entries.mapValues_ofList]
    exact congrArg _ (funext (Entries.get?_mapValues f (Entries.ofList es)))
  rw [tagged, hPicked]
  cases h : v.picked? tag es with
  | none => simp [eq_comm]
  | some a =>
    obtain ⟨name, hMem⟩ := Entries.mem_of_chosen h
    constructor
    · exact fun hRun => .inr ⟨(name, a), hMem, rfl, hRun⟩
    · rintro (⟨hNone, _⟩ | ⟨e, _, hSame, hRun⟩)
      · cases hNone
      · cases hSame
        exact hRun

/-- Where the names are different they stay as they are. -/
theorem record_fields_iff {transform : Transform Option} (hKeys : (Entries.keys v.entries).Nodup) :
    record transform v = some w ↔
      ∃ fields, Entries.Related (fun raw a => transform raw = some a) v.entries fields ∧ w = .obj fields := by
  rw [record_eq_some_iff]
  apply exists_congr
  intro fields
  rw [Entries.Related, List.forall₂_map_left_iff]
  apply and_congr_right
  intro hFields
  have hRelated : Entries.Related (fun raw a => transform raw = some a) v.entries fields := hFields
  rw [Entries.ofList_of_nodup (hRelated.keys_eq ▸ hKeys)]

/-- Every declaration ends on what the last one of its name makes of anything on which both have ended. -/
def Redeclares (first second : τ → Transform Option) (es : Entries τ) : Prop :=
  ∀ e ∈ es, ∀ last, (Entries.ofList es).get? e.1 = some last → ∀ {v w w'}, v.WellKeyed →
    first e.2 v = some w' → first last v = some w → ∃ w'', second e.2 w = some w''

theorem Redeclares.nullable {g : τ → Transform Option} (h : Redeclares f g es) :
    Redeclares (fun t => nullable (f t)) (fun t => nullable (g t)) es := by
  intro e he last hLast v w w' hKeys hFirst hMade
  by_cases hNull : w = .null
  · exact ⟨.null, nullable_eq_some_iff.mpr (.inl ⟨hNull, rfl⟩)⟩
  · rcases nullable_eq_some_iff.mp hMade with ⟨_, rfl⟩ | ⟨hOther, hMade⟩
    · exact absurd rfl hNull
    · have hFirst := (nullable_eq_some_iff.mp hFirst).resolve_left fun h => hOther h.1
      obtain ⟨w'', hAgain⟩ := h e he last hLast hKeys hFirst.2 hMade
      exact ⟨w'', nullable_eq_some_iff.mpr (.inr ⟨hNull, hAgain⟩)⟩

end

/-- A transform that is done a second time, maybe with the references followed in another way. The second time
gives what was there, and it ends whenever the first has ended, if `ends` holds. -/
structure Repeats (ends : Prop) (first second : Transform Option) : Prop where
  string : ∀ {v s}, v.WellKeyed → first v = some (.str s) → v = .str s
  tag : ∀ {v w name s}, v.WellKeyed → first v = some w → w.get? name = some (.str s) → v.get? name = some (.str s)
  same : ∀ {v w w'}, v.WellKeyed → first v = some w → second w = some w' → w' = w
  ends : ends → ∀ {v w}, v.WellKeyed → first v = some w → ∃ w', second w = some w'

namespace Repeats
variable {ends : Prop} {first second : Transform Option}

theorem again (h : Repeats ends first second) (hEnds : ends) (hKeys : v.WellKeyed) (hFirst : first v = some w) :
    second w = some w := by
  obtain ⟨w', hSecond⟩ := h.ends hEnds hKeys hFirst
  rw [hSecond, h.same hKeys hFirst hSecond]

theorem never (second : Transform Option) : Repeats ends (fun _ => none) second := by
  constructor <;> intros <;> contradiction

/-- A second transform that never ends repeats whatever need not end. -/
theorem stop (h : Repeats ends first second) (hEndless : ¬ends) : Repeats ends first fun _ => none where
  string := h.string
  tag := h.tag
  same _ _ hSecond := by cases hSecond
  ends hEnds := absurd hEnds hEndless

theorem id : Repeats ends (convert fun v => v) (convert fun v => v) where
  string _ hFirst := Option.some.inj hFirst
  tag _ hFirst hTag := by
    cases hFirst
    exact hTag
  same _ _ hSecond := (Option.some.inj hSecond).symm
  ends _ _ _ _ _ := ⟨_, rfl⟩

theorem nullable (h : Repeats ends first second) : Repeats ends (nullable first) (nullable second) where
  string hKeys hFirst := by
    rcases nullable_eq_some_iff.mp hFirst with ⟨_, hNull⟩ | ⟨_, hFirst⟩
    · cases hNull
    · exact h.string hKeys hFirst
  tag hKeys hFirst hTag := by
    rcases nullable_eq_some_iff.mp hFirst with ⟨_, rfl⟩ | ⟨_, hFirst⟩
    · cases hTag
    · exact h.tag hKeys hFirst hTag
  same hKeys hFirst hSecond := by
    rcases nullable_eq_some_iff.mp hSecond with ⟨rfl, rfl⟩ | ⟨hOther, hSecond⟩
    · rfl
    · rcases nullable_eq_some_iff.mp hFirst with ⟨_, rfl⟩ | ⟨_, hFirst⟩
      · exact absurd rfl hOther
      · exact h.same hKeys hFirst hSecond
  ends hEnds v w hKeys hFirst := by
    by_cases hNull : w = .null
    · exact ⟨.null, nullable_eq_some_iff.mpr (.inl ⟨hNull, rfl⟩)⟩
    · rcases nullable_eq_some_iff.mp hFirst with ⟨_, rfl⟩ | ⟨_, hFirst⟩
      · exact absurd rfl hNull
      · obtain ⟨w', hSecond⟩ := h.ends hEnds hKeys hFirst
        exact ⟨w', nullable_eq_some_iff.mpr (.inr ⟨hNull, hSecond⟩)⟩

section
variable {τ : Type} {es : Entries τ} {f g : τ → Transform Option}
variable (h : ∀ e ∈ es, Repeats ends (f e.2) (g e.2))
include h

theorem redeclares (hEnds : ends) (hOnce : es.keys.Nodup) : Redeclares f g es := by
  intro e he last hLast v w w' hKeys _ hFirst
  rw [Entries.ofList_of_nodup hOnce, Entries.get?_of_mem hOnce he] at hLast
  cases hLast
  exact (h e he).ends hEnds hKeys hFirst

theorem object (hAgain : ends → Redeclares f g es) :
    Repeats ends (object (es.mapValues f)) (object (es.mapValues g)) where
  string _ hFirst := by
    obtain ⟨_, _, hString⟩ := object_eq_some_iff.mp hFirst
    cases hString
  tag hKeys hFirst hTag := by
    obtain ⟨_, _, rfl⟩ := object_eq_some_iff.mp hFirst
    obtain ⟨_, _, hMem, hField⟩ := object_field hFirst hTag
    exact Value.get?_of_property ((h _ hMem).string (hKeys.entries.property _) hField)
  same hKeys hFirst hSecond := by
    obtain ⟨_, _, rfl⟩ := object_eq_some_iff.mp hFirst
    obtain ⟨_, _, rfl⟩ := object_eq_some_iff.mp hSecond
    have hNames := (object_keys hSecond).trans (object_keys hFirst).symm
    refine congrArg Value.obj (Entries.eq_of_get? hNames (Entries.nodup_keys_ofList _) fun name b a hb ha => ?_)
    obtain ⟨last, hLast, hMem, hField⟩ := object_field hFirst ha
    obtain ⟨last', hLast', _, hField'⟩ := object_field hSecond hb
    cases hLast.symm.trans hLast'
    rw [Value.entries, ha] at hField'
    exact (h _ hMem).same (hKeys.entries.property name) hField hField'
  ends hEnds v w hKeys hFirst := by
    obtain ⟨fields, _, rfl⟩ := object_eq_some_iff.mp hFirst
    have hEach := object_ends_iff.mp ⟨_, hFirst⟩
    refine object_ends_iff.mpr fun e he => ?_
    have hName : e.1 ∈ (Entries.ofList fields).keys := by
      rw [object_keys hFirst, List.mem_eraseDups]
      exact List.mem_map_of_mem he
    obtain ⟨a, ha⟩ := Entries.mem_keys_iff.mp hName
    obtain ⟨last, hLast, _, hField⟩ := object_field hFirst ha
    obtain ⟨_, hFirst⟩ := hEach e he
    rw [Value.entries, ha]
    exact hAgain hEnds e he last hLast (hKeys.entries.property e.1) hFirst hField

theorem partialObject (hAgain : ends → Redeclares f g es) :
    Repeats ends (partialObject (es.mapValues f)) (partialObject (es.mapValues g)) where
  string _ hFirst := by
    obtain ⟨_, _, hString⟩ := partialObject_eq_some_iff.mp hFirst
    cases hString
  tag hKeys hFirst hTag := by
    obtain ⟨_, _, rfl⟩ := partialObject_eq_some_iff.mp hFirst
    obtain ⟨raw, _, hRaw, _, hMem, hField⟩ := partialObject_field hFirst hTag
    rw [Value.get?_eq_some_iff, hRaw, (h _ hMem).nullable.string (hKeys.entry hRaw) hField]
  same {v _ _} hKeys hFirst hSecond := by
    obtain ⟨fields, _, rfl⟩ := partialObject_eq_some_iff.mp hFirst
    obtain ⟨fields', _, rfl⟩ := partialObject_eq_some_iff.mp hSecond
    have hNames : (Entries.ofList fields').keys = (Entries.ofList fields).keys := by
      rw [partialObject_keys hSecond, partialObject_keys hFirst]
      refine congrArg List.eraseDups (List.filter_congr fun name hName => ?_)
      rw [Bool.eq_iff_iff, Option.isSome_iff_exists, Value.entries, ← Entries.mem_keys_iff,
        partialObject_keys hFirst, List.mem_eraseDups, List.mem_filter, and_iff_right hName]
    refine congrArg Value.obj (Entries.eq_of_get? hNames (Entries.nodup_keys_ofList _) fun name b a hb ha => ?_)
    obtain ⟨raw, last, hRaw, hLast, hMem, hField⟩ := partialObject_field hFirst ha
    obtain ⟨_, last', hRaw', hLast', _, hField'⟩ := partialObject_field hSecond hb
    cases hLast.symm.trans hLast'
    cases ha.symm.trans hRaw'
    exact (h _ hMem).nullable.same (hKeys.entry hRaw) hField hField'
  ends hEnds v w hKeys hFirst := by
    obtain ⟨fields, _, rfl⟩ := partialObject_eq_some_iff.mp hFirst
    have hEach := partialObject_ends_iff.mp ⟨_, hFirst⟩
    refine partialObject_ends_iff.mpr fun e he a ha => ?_
    obtain ⟨raw, last, hRaw, hLast, _, hField⟩ := partialObject_field hFirst ha
    obtain ⟨_, hFirst⟩ := hEach e he raw hRaw
    exact (hAgain hEnds).nullable e he last hLast (hKeys.entry hRaw) hFirst hField

end

theorem record (h : Repeats ends first second) : Repeats ends (record first) (record second) where
  string _ hFirst := by
    obtain ⟨_, _, hString⟩ := record_eq_some_iff.mp hFirst
    cases hString
  tag hKeys hFirst hTag := by
    obtain ⟨fields, hFields, rfl⟩ := (record_fields_iff hKeys.entries.1).mp hFirst
    obtain ⟨raw, hRaw, hField⟩ := hFields.get?_right hTag
    rw [Value.get?_eq_some_iff, hRaw, h.string (hKeys.entry hRaw) hField]
  same hKeys hFirst hSecond := by
    obtain ⟨fields, hFields, rfl⟩ := (record_fields_iff hKeys.entries.1).mp hFirst
    obtain ⟨fields', hFields', rfl⟩ := (record_fields_iff (hFields.keys_eq ▸ hKeys.entries.1)).mp hSecond
    refine congrArg Value.obj (Entries.Related.eq (forall₂_imp_of_mem hFields' fun a ha b hb => ?_)).symm
    obtain ⟨raw, hRaw, _, hField⟩ := forall₂_mem_right hFields ha
    exact ⟨hb.1, (h.same (hKeys.entries.2.mem raw hRaw) hField hb.2).symm⟩
  ends hEnds v w hKeys hFirst := by
    obtain ⟨fields, hFields, rfl⟩ := (record_fields_iff hKeys.entries.1).mp hFirst
    obtain ⟨fields', hFields'⟩ : ∃ fields', Entries.Related (fun a b => second a = some b) fields fields' := by
      refine Entries.exists_related fun a ha => ?_
      obtain ⟨raw, hRaw, _, hField⟩ := forall₂_mem_right hFields ha
      exact h.ends hEnds (hKeys.entries.2.mem raw hRaw) hField
    exact ⟨_, (record_fields_iff (hFields.keys_eq ▸ hKeys.entries.1)).mpr ⟨fields', hFields', rfl⟩⟩

theorem array (h : Repeats ends first second) : Repeats ends (array first) (array second) where
  string _ hFirst := by
    obtain ⟨_, _, hString⟩ := array_eq_some_iff.mp hFirst
    cases hString
  tag _ hFirst hTag := by
    obtain ⟨_, _, rfl⟩ := array_eq_some_iff.mp hFirst
    cases hTag
  same hKeys hFirst hSecond := by
    obtain ⟨encoded, hEncoded, rfl⟩ := array_eq_some_iff.mp hFirst
    obtain ⟨encoded', hEncoded', rfl⟩ := array_eq_some_iff.mp hSecond
    have hSame : List.Forall₂ Eq encoded encoded' := by
      refine forall₂_imp_of_mem hEncoded' fun a ha b hb => ?_
      obtain ⟨item, hItem, hFirst⟩ := forall₂_mem_right hEncoded ha
      exact (h.same (hKeys.items item hItem) hFirst hb).symm
    rw [List.forall₂_eq_eq_eq] at hSame
    exact congrArg Value.arr hSame.symm
  ends hEnds v w hKeys hFirst := by
    obtain ⟨encoded, hEncoded, rfl⟩ := array_eq_some_iff.mp hFirst
    obtain ⟨encoded', hEncoded'⟩ : ∃ encoded', List.Forall₂ (fun a b => second a = some b) encoded encoded' := by
      refine exists_forall₂ fun a ha => ?_
      obtain ⟨item, hItem, hFirst⟩ := forall₂_mem_right hEncoded ha
      exact h.ends hEnds (hKeys.items item hItem) hFirst
    exact ⟨_, array_eq_some_iff.mpr ⟨encoded', hEncoded', rfl⟩⟩

theorem tuple {τ : Type} {slots : List τ} {f g : τ → Transform Option}
    (h : ∀ slot ∈ slots, Repeats ends (f slot) (g slot)) :
    Repeats ends (tuple (slots.map f)) (tuple (slots.map g)) where
  string _ hFirst := by
    obtain ⟨_, _, hString⟩ := tuple_eq_some_iff.mp hFirst
    cases hString
  tag _ hFirst hTag := by
    obtain ⟨_, _, rfl⟩ := tuple_eq_some_iff.mp hFirst
    cases hTag
  same hKeys hFirst hSecond := by
    obtain ⟨encoded, hEncoded, rfl⟩ := tuple_items_iff.mp hFirst
    obtain ⟨encoded', hEncoded', rfl⟩ := tuple_items_iff.mp hSecond
    have hSame : List.Forall₂ (fun (p : Value × τ) b => p.1 = b) (encoded.zip slots) encoded' := by
      refine forall₂_imp_of_mem hEncoded' fun p hp b hb => ?_
      obtain ⟨item, hItem, hSlot, hFirst⟩ := forall₂_zip_mem hEncoded hp
      exact ((h _ hSlot).same (hKeys.items item hItem) hFirst hb).symm
    have hLength : encoded.length ≤ slots.length := by
      rw [← hEncoded.length_eq, List.length_zip]
      exact Nat.min_le_right ..
    have hAll := List.forall₂_map_left_iff.mpr hSame
    rw [List.forall₂_eq_eq_eq, List.map_fst_zip hLength] at hAll
    exact congrArg Value.arr hAll.symm
  ends hEnds v w hKeys hFirst := by
    obtain ⟨encoded, hEncoded, rfl⟩ := tuple_items_iff.mp hFirst
    obtain ⟨encoded', hEncoded'⟩ : ∃ encoded', List.Forall₂ (fun (p : Value × τ) b => g p.2 p.1 = some b)
        (encoded.zip slots) encoded' := by
      refine exists_forall₂ fun p hp => ?_
      obtain ⟨item, hItem, hSlot, hFirst⟩ := forall₂_zip_mem hEncoded hp
      exact (h _ hSlot).ends hEnds (hKeys.items item hItem) hFirst
    exact ⟨_, tuple_items_iff.mpr ⟨encoded', hEncoded', rfl⟩⟩

section
variable {τ : Type} {tag : String} {es : Entries τ} {f g : τ → Transform Option}
variable (h : ∀ e ∈ es, Repeats ends (f e.2) (g e.2))
include h

theorem tag_of_tagged {name s : String} (hKeys : v.WellKeyed) (hFirst : tagged tag (es.mapValues f) v = some w)
    (hTag : w.get? name = some (.str s)) : v.get? name = some (.str s) := by
  rcases tagged_eq_some_iff.mp hFirst with ⟨_, rfl⟩ | ⟨e, he, _, hFirst⟩
  · exact hTag
  · exact (h e he).tag hKeys hFirst hTag

/-- What still has a tag has that of the value, so no other member is picked the second time. -/
theorem picked_of_tagged {a : τ} (hKeys : v.WellKeyed) (hFirst : tagged tag (es.mapValues f) v = some w)
    (hPicked : w.picked? tag es = some a) : f a v = some w := by
  obtain ⟨name, hTag, hFound⟩ := Value.picked?_eq_some_iff.mp hPicked
  have hBefore := Value.picked?_eq_some_iff.mpr ⟨name, tag_of_tagged h hKeys hFirst hTag, hFound⟩
  rcases tagged_eq_some_iff.mp hFirst with ⟨hNone, _⟩ | ⟨e, _, hSame, hFirst⟩
  · cases hNone.symm.trans hBefore
  · cases hSame.symm.trans hBefore
    exact hFirst

theorem tagged : Repeats ends (tagged tag (es.mapValues f)) (tagged tag (es.mapValues g)) where
  string hKeys hFirst := by
    rcases tagged_eq_some_iff.mp hFirst with ⟨_, hSame⟩ | ⟨e, he, _, hFirst⟩
    · exact hSame.symm
    · exact (h e he).string hKeys hFirst
  tag := tag_of_tagged h
  same hKeys hFirst hSecond := by
    rcases tagged_eq_some_iff.mp hSecond with ⟨_, hSame⟩ | ⟨e, he, hPicked, hSecond⟩
    · exact hSame
    · exact (h e he).same hKeys (picked_of_tagged h hKeys hFirst hPicked) hSecond
  ends hEnds v w hKeys hFirst := by
    cases hPicked : w.picked? tag es with
    | none => exact ⟨w, tagged_eq_some_iff.mpr (.inl ⟨hPicked, rfl⟩)⟩
    | some a =>
      obtain ⟨name, hMem⟩ := Entries.mem_of_chosen hPicked
      obtain ⟨w', hSecond⟩ := (h _ hMem).ends hEnds hKeys (picked_of_tagged h hKeys hFirst hPicked)
      exact ⟨w', tagged_eq_some_iff.mpr (.inr ⟨(name, a), hMem, hPicked, hSecond⟩)⟩

end

end Repeats
end Transform
end JsonShapes
