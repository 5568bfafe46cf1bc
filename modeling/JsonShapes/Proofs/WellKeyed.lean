import JsonShapes.Proofs.Entries
import JsonShapes.Value.Reader

/-! # Values that name no entry twice

Values are lists of entries that may repeat a name, but reading a text never gives such a value: of the
entries of one name the reader keeps the last. Where the order of entries and looking a name up have to
agree, values of this kind are meant.
-/
namespace JsonShapes.Value
set_option autoImplicit false

mutual

/-- No object in the value has two entries of one name. -/
def WellKeyed : Value → Prop
  | arr items => WellKeyedItems items
  | obj entries => (Entries.keys entries).Nodup ∧ WellKeyedEntries entries
  | _ => True

def WellKeyedItems : List Value → Prop
  | [] => True
  | v :: rest => WellKeyed v ∧ WellKeyedItems rest

def WellKeyedEntries : List (String × Value) → Prop
  | [] => True
  | (_, v) :: rest => WellKeyed v ∧ WellKeyedEntries rest

end

theorem WellKeyedItems.mem {items : List Value} (h : WellKeyedItems items) :
    ∀ v ∈ items, v.WellKeyed := by
  induction items with
  | nil =>
    intro v hv
    cases hv
  | cons w rest ih =>
    intro v hv
    rcases List.mem_cons.mp hv with rfl | hv
    · exact h.1
    · exact ih h.2 v hv

theorem WellKeyedEntries.mem {entries : List (String × Value)} (h : WellKeyedEntries entries) :
    ∀ e ∈ entries, e.2.WellKeyed := by
  induction entries with
  | nil =>
    intro e he
    cases he
  | cons e' rest ih =>
    intro e he
    rcases List.mem_cons.mp he with rfl | he
    · exact h.1
    · exact ih h.2 e he

variable {entries : List (String × Value)} {items : List Value}

theorem WellKeyed.property (h : (obj entries).WellKeyed) (name : String) :
    ((Entries.get? entries name).getD .null).WellKeyed := by
  cases hFound : Entries.get? entries name with
  | none => trivial
  | some raw => exact h.2.mem (name, raw) (Entries.mem_of_get? hFound)

theorem WellKeyed.element (h : (arr items).WellKeyed) (position : Nat) :
    (items[position]?.getD .null).WellKeyed := by
  cases hFound : items[position]? with
  | none => trivial
  | some raw => exact WellKeyedItems.mem h raw (List.mem_of_getElem? hFound)

theorem WellKeyed.get?_eq (h : (obj entries).WellKeyed) {e : String × Value} (he : e ∈ entries) :
    Entries.get? entries e.1 = some e.2 := Entries.get?_of_mem h.1 he

/-! ## Values that are read -/

theorem WellKeyedItems.of_mem {items : List Value} (h : ∀ v ∈ items, v.WellKeyed) :
    WellKeyedItems items := by
  induction items with
  | nil => trivial
  | cons v rest ih =>
    obtain ⟨hHead, hRest⟩ := List.forall_mem_cons.mp h
    exact ⟨hHead, ih hRest⟩

theorem WellKeyedEntries.of_mem {entries : List (String × Value)} (h : ∀ e ∈ entries, e.2.WellKeyed) :
    WellKeyedEntries entries := by
  induction entries with
  | nil => trivial
  | cons e rest ih =>
    obtain ⟨hHead, hRest⟩ := List.forall_mem_cons.mp h
    exact ⟨hHead, ih hRest⟩

theorem wellKeyed_ofList {entries : List (String × Value)} (h : ∀ e ∈ entries, e.2.WellKeyed) :
    (obj (Entries.ofList entries)).WellKeyed := by
  constructor
  · exact Entries.nodup_keys_ofList entries
  · apply WellKeyedEntries.of_mem
    intro e he
    exact h e (Entries.mem_of_mem_ofList he)

theorem exists_entries_of_kind {v : Value} (h : v.kind = .object) : ∃ E : Entries Value, v = .obj E := by
  cases v with
  | obj E => exact ⟨E, rfl⟩
  | _ => cases h

theorem merge_eq_right {a b : Value} (h : a.kind ≠ .object ∨ b.kind ≠ .object) : a.merge b = b := by
  cases a with
  | obj _ =>
    cases b with
    | obj _ => exact absurd rfl (h.resolve_left fun hLeft => hLeft rfl)
    | _ => rfl
  | _ => rfl

theorem WellKeyed.merge {v w : Value} (hv : v.WellKeyed) (hw : w.WellKeyed) : (v.merge w).WellKeyed := by
  cases v with
  | obj left =>
    cases w with
    | obj right =>
      refine ⟨Entries.nodup_keys_merge hv.1 right, WellKeyedEntries.of_mem ?_⟩
      intro e he
      rcases Entries.mem_merge he with he | he
      · exact hv.2.mem e he
      · exact hw.2.mem e he
    | _ => exact hw
  | _ => exact hw

namespace Reader

theorem literal?_wellKeyed {word cs rest : List Char} {w v : Value} (hw : w.WellKeyed)
    (h : literal? word w cs = some (v, rest)) : v.WellKeyed := by
  unfold literal? at h
  split at h
  · cases h
    exact hw
  · cases h

mutual

theorem value?_wellKeyed (fuel : Nat) {cs rest : List Char} {v : Value}
    (h : value? fuel cs = some (v, rest)) : v.WellKeyed := by
  cases fuel with
  | zero => cases h
  | succ fuel =>
    unfold value? at h
    split at h
    · obtain ⟨⟨s, _⟩, _, h⟩ := Option.map_eq_some_iff.mp h
      cases h
      trivial
    · split at h
      · cases h
        trivial
      · obtain ⟨⟨items, _⟩, hItems, h⟩ := Option.map_eq_some_iff.mp h
        cases h
        exact WellKeyedItems.of_mem (items?_wellKeyed fuel hItems)
    · split at h
      · cases h
        exact ⟨List.nodup_nil, trivial⟩
      · obtain ⟨⟨entries, _⟩, hEntries, h⟩ := Option.map_eq_some_iff.mp h
        cases h
        exact wellKeyed_ofList (entries?_wellKeyed fuel hEntries)
    · refine literal?_wellKeyed ?_ h
      trivial
    · refine literal?_wellKeyed ?_ h
      trivial
    · refine literal?_wellKeyed ?_ h
      trivial
    · obtain ⟨⟨n, _⟩, _, h⟩ := Option.map_eq_some_iff.mp h
      cases h
      trivial

theorem items?_wellKeyed (fuel : Nat) {cs rest : List Char} {items : List Value}
    (h : items? fuel cs = some (items, rest)) : ∀ v ∈ items, v.WellKeyed := by
  cases fuel with
  | zero => cases h
  | succ fuel =>
    obtain ⟨⟨first, _⟩, hFirst, h⟩ := Option.bind_eq_some_iff.mp h
    have hHead := value?_wellKeyed fuel hFirst
    dsimp only at h
    split at h
    · obtain ⟨⟨others, _⟩, hOthers, h⟩ := Option.bind_eq_some_iff.mp h
      cases h
      exact List.forall_mem_cons.mpr ⟨hHead, items?_wellKeyed fuel hOthers⟩
    · cases h
      exact List.forall_mem_cons.mpr ⟨hHead, List.forall_mem_nil _⟩
    · cases h

theorem entries?_wellKeyed (fuel : Nat) {cs rest : List Char} {entries : List (String × Value)}
    (h : entries? fuel cs = some (entries, rest)) : ∀ e ∈ entries, e.2.WellKeyed := by
  cases fuel with
  | zero => cases h
  | succ fuel =>
    unfold entries? at h
    split at h
    · obtain ⟨⟨name, _⟩, _, h⟩ := Option.bind_eq_some_iff.mp h
      dsimp only at h
      split at h
      · obtain ⟨⟨first, _⟩, hFirst, h⟩ := Option.bind_eq_some_iff.mp h
        have hHead := value?_wellKeyed fuel hFirst
        dsimp only at h
        split at h
        · obtain ⟨⟨others, _⟩, hOthers, h⟩ := Option.bind_eq_some_iff.mp h
          cases h
          exact List.forall_mem_cons.mpr ⟨hHead, entries?_wellKeyed fuel hOthers⟩
        · cases h
          exact List.forall_mem_cons.mpr ⟨hHead, List.forall_mem_nil _⟩
        · cases h
      · cases h
    · cases h

end

end Reader

/-- A text that is read names no entry twice, whatever it repeats. -/
theorem ofText?_wellKeyed {text : String} {v : Value} (h : ofText? text = some v) : v.WellKeyed := by
  unfold ofText? at h
  dsimp only at h
  split at h
  · rename_i w rest hRead
    split at h
    · cases h
      exact Reader.value?_wellKeyed _ hRead
    · cases h
  · cases h

end JsonShapes.Value
