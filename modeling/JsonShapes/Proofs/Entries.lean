import JsonShapes.Entries
import Mathlib.Data.List.Induction

/-! # Entries after insertion

Of a list with repeated names `ofList` keeps each name once, where it first occurs, with the value that it
has last.
-/
namespace JsonShapes.Entries
set_option autoImplicit false

variable {α : Type}

theorem mem_of_get? {entries : Entries α} {name : String} {a : α}
    (h : entries.get? name = some a) : (name, a) ∈ entries := by
  induction entries with
  | nil => cases h
  | cons e rest ih =>
    obtain ⟨k, b⟩ := e
    rw [get?_cons] at h
    split at h
    · rename_i hName
      cases h
      exact hName ▸ List.mem_cons_self
    · exact List.mem_cons_of_mem _ (ih h)

theorem get?_of_mem {entries : Entries α} (hNodup : entries.keys.Nodup) {e : String × α}
    (he : e ∈ entries) : entries.get? e.1 = some e.2 := by
  induction entries with
  | nil => cases he
  | cons e' rest ih =>
    obtain ⟨hNew, hRest⟩ := List.nodup_cons.mp hNodup
    rw [get?_cons]
    rcases List.mem_cons.mp he with rfl | he
    · exact if_pos rfl
    · have hName : e.1 ≠ e'.1 := by
        intro hSame
        have hMem : e.1 ∈ rest.map (·.1) := List.mem_map_of_mem he
        rw [hSame] at hMem
        exact hNew hMem
      rw [if_neg hName]
      exact ih hRest he

theorem get?_eq_none_iff {entries : Entries α} {name : String} :
    entries.get? name = none ↔ name ∉ entries.keys := by
  induction entries with
  | nil => simp [keys]
  | cons e rest ih =>
    rw [get?_cons]
    by_cases hName : name = e.1
    · simp [keys, hName]
    · rw [if_neg hName, ih]
      simp [keys, hName]

theorem mem_keys_iff {entries : Entries α} {name : String} :
    name ∈ entries.keys ↔ ∃ a, entries.get? name = some a := by
  rw [← Option.ne_none_iff_exists', Ne, get?_eq_none_iff, not_not]

theorem get?_map {β : Type} (f : String → α → β) (entries : Entries α) (name : String) :
    get? (entries.map fun e => (e.1, f e.1 e.2)) name = (entries.get? name).map (f name) := by
  induction entries with
  | nil => rfl
  | cons e rest ih =>
    rw [List.map_cons, get?_cons, get?_cons]
    by_cases hName : name = e.1
    · rw [if_pos hName, if_pos hName, Option.map_some, hName]
    · rw [if_neg hName, if_neg hName, ih]

theorem ofList_concat (entries : List (String × α)) (e : String × α) :
    ofList (entries ++ [e]) = (ofList entries).insert e.1 e.2 := by
  simp only [ofList, merge, List.foldl_append, List.foldl_cons, List.foldl_nil]

theorem get?_ofList (entries : List (String × α)) (name : String) :
    (ofList entries).get? name = entries.reverse.lookup name := by
  induction entries using List.reverseRecOn with
  | nil => rfl
  | append_singleton entries e ih =>
    rw [ofList_concat, get?_insert, ih, List.reverse_append, List.reverse_singleton,
      List.singleton_append, List.lookup_cons]
    by_cases hName : name = e.1
    · rw [if_pos hName, hName, beq_self_eq_true]
    · rw [if_neg hName, beq_false_of_ne hName]

theorem keys_ofList (entries : List (String × α)) :
    (ofList entries).keys = (entries.map (·.1)).eraseDups := by
  induction entries using List.reverseRecOn with
  | nil => rfl
  | append_singleton entries e ih =>
    rw [ofList_concat, keys_insert, ih, List.map_append, List.eraseDups_append]
    by_cases hName : e.1 ∈ entries.map (·.1)
    · rw [if_pos (List.mem_eraseDups.mpr hName)]
      simp [List.removeAll, hName]
    · rw [if_neg fun h => hName (List.mem_eraseDups.mp h)]
      simp [List.removeAll, hName, List.eraseDups_cons]

theorem mem_keys_ofList {entries : List (String × α)} {name : String} :
    name ∈ (ofList entries).keys ↔ name ∈ keys entries := by
  rw [keys_ofList, List.mem_eraseDups]
  exact Iff.rfl

theorem nodup_keys_insert (name : String) (a : α) {entries : Entries α} (h : entries.keys.Nodup) :
    (entries.insert name a).keys.Nodup := by
  rw [keys_insert]
  by_cases hName : name ∈ entries.keys
  · rw [if_pos hName]
    exact h
  · rw [if_neg hName]
    refine List.nodup_append.mpr ⟨h, List.pairwise_singleton _ _, ?_⟩
    intro k hk k' hk' hSame
    cases List.mem_singleton.mp hk'
    exact hName (hSame ▸ hk)

theorem insert_of_not_mem {name : String} {a : α} {entries : Entries α} (h : name ∉ entries.keys) :
    entries.insert name a = entries ++ [(name, a)] := by
  induction entries with
  | nil => rfl
  | cons e rest ih =>
    obtain ⟨hName, hRest⟩ : name ≠ e.1 ∧ name ∉ keys rest := by simpa [keys] using h
    rw [insert, if_neg fun hSame => hName hSame.symm, ih hRest, List.cons_append]

theorem nodup_keys_merge {left : Entries α} (h : left.keys.Nodup) (right : Entries α) :
    (left.merge right).keys.Nodup := by
  induction right generalizing left with
  | nil => exact h
  | cons e rest ih => exact ih (nodup_keys_insert e.1 e.2 h)

theorem get?_merge {right : Entries α} (hRight : right.keys.Nodup) (left : Entries α) (name : String) :
    (left.merge right).get? name = (right.get? name).or (left.get? name) := by
  induction right generalizing left with
  | nil => rfl
  | cons e rest ih =>
    obtain ⟨hNew, hRest⟩ := List.nodup_cons.mp hRight
    have hStep : (left.merge (e :: rest)).get? name = ((left.insert e.1 e.2).merge rest).get? name := rfl
    rw [hStep, ih hRest, get?_insert, get?_cons]
    by_cases hName : name = e.1
    · rw [if_pos hName, if_pos hName, hName, get?_eq_none_iff.mpr hNew]
      rfl
    · rw [if_neg hName, if_neg hName]

theorem mem_keys_merge {right : Entries α} (hRight : right.keys.Nodup) {left : Entries α} {name : String} :
    name ∈ (left.merge right).keys ↔ name ∈ left.keys ∨ name ∈ right.keys := by
  rw [mem_keys_iff, mem_keys_iff, mem_keys_iff, get?_merge hRight]
  cases left.get? name <;> cases right.get? name <;> simp

theorem nodup_keys_ofList (entries : List (String × α)) : (ofList entries).keys.Nodup := by
  induction entries using List.reverseRecOn with
  | nil => exact List.nodup_nil
  | append_singleton entries e ih =>
    rw [ofList_concat]
    exact nodup_keys_insert e.1 e.2 ih

theorem merge_of_nodup {left right : Entries α} (h : (left.keys ++ right.keys).Nodup) :
    left.merge right = left ++ right := by
  induction right generalizing left with
  | nil => rw [List.append_nil]; rfl
  | cons e rest ih =>
    have hNew : e.1 ∉ left.keys := fun hMem => (List.nodup_append.mp h).2.2 e.1 hMem e.1 List.mem_cons_self rfl
    have hInsert : left.insert e.1 e.2 = left ++ [e] := insert_of_not_mem hNew
    have hStep : left.merge (e :: rest) = (left.insert e.1 e.2).merge rest := rfl
    have hKeys : ((left ++ [e] : Entries α).keys ++ Entries.keys rest).Nodup := by
      simpa [keys] using h
    rw [hStep, hInsert, ih hKeys, List.append_assoc, List.singleton_append]

theorem insert_insert (name : String) (a b : α) (entries : Entries α) :
    (entries.insert name a).insert name b = entries.insert name b := by
  induction entries with
  | nil => rw [insert, insert, insert, if_pos rfl]
  | cons e rest ih =>
    obtain ⟨k, c⟩ := e
    by_cases hName : k = name
    · rw [insert, if_pos hName, insert, if_pos hName, insert, if_pos hName]
    · rw [insert, if_neg hName, insert, if_neg hName, ih, insert, if_neg hName]

/-- What is inserted under a name that is there leaves every place as it is. -/
theorem insert_comm {name other : String} (hOther : other ≠ name) {entries : Entries α}
    (hMem : name ∈ entries.keys) (a b : α) :
    (entries.insert other b).insert name a = (entries.insert name a).insert other b := by
  induction entries with
  | nil => cases hMem
  | cons e rest ih =>
    obtain ⟨k, c⟩ := e
    by_cases hName : k = name
    · have hElse : k ≠ other := fun hSame => hOther (hSame.symm.trans hName)
      simp only [insert, if_pos hName, if_neg hElse]
    · have hRest : name ∈ keys rest := (List.mem_cons.mp hMem).resolve_left fun hSame => hName hSame.symm
      by_cases hElse : k = other
      · simp only [insert, if_neg hName, if_pos hElse]
      · simp only [insert, if_neg hName, if_neg hElse, ih hRest]

theorem insert_merge {name : String} {left right : Entries α} (hMem : name ∈ left.keys)
    (hNew : name ∉ right.keys) (a : α) : (left.merge right).insert name a = (left.insert name a).merge right := by
  induction right generalizing left with
  | nil => rfl
  | cons e rest ih =>
    obtain ⟨hOther, hRest⟩ : name ≠ e.1 ∧ name ∉ keys rest := by simpa [keys] using hNew
    have hKept : name ∈ (left.insert e.1 e.2).keys := by
      rw [keys_insert]
      split
      · exact hMem
      · exact List.mem_append_left _ hMem
    have hStep : left.merge (e :: rest) = (left.insert e.1 e.2).merge rest := rfl
    rw [hStep, ih hKept hRest, insert_comm hOther.symm hMem]
    rfl

theorem merge_insert {right : Entries α} (hRight : right.keys.Nodup) (left : Entries α) (name : String) (a : α) :
    left.merge (right.insert name a) = (left.merge right).insert name a := by
  induction right generalizing left with
  | nil => rfl
  | cons e rest ih =>
    obtain ⟨k, b⟩ := e
    obtain ⟨hNew, hRest⟩ := List.nodup_cons.mp hRight
    have hStep : left.merge ((k, b) :: rest) = (left.insert k b).merge rest := rfl
    by_cases hName : k = name
    · subst hName
      have hMem : k ∈ (left.insert k b).keys := mem_keys_iff.mpr ⟨b, by rw [get?_insert, if_pos rfl]⟩
      rw [insert, if_pos rfl, hStep, insert_merge hMem hNew, insert_insert]
      rfl
    · rw [insert, if_neg hName, hStep, ← ih hRest]
      rfl

theorem merge_assoc {mid : Entries α} (hMid : mid.keys.Nodup) (left right : Entries α) :
    (left.merge mid).merge right = left.merge (mid.merge right) := by
  induction right generalizing mid with
  | nil => rfl
  | cons e rest ih =>
    have hStep : (left.merge mid).merge (e :: rest) = ((left.merge mid).insert e.1 e.2).merge rest := rfl
    rw [hStep, ← merge_insert hMid, ih (nodup_keys_insert e.1 e.2 hMid)]
    rfl

theorem ofList_of_nodup {entries : Entries α} (h : entries.keys.Nodup) : ofList entries = entries := by
  have hKeys : (keys ([] : Entries α) ++ entries.keys).Nodup := h
  exact merge_of_nodup hKeys

theorem mem_insert {name : String} {a : α} {entries : Entries α} {e : String × α}
    (h : e ∈ entries.insert name a) : e = (name, a) ∨ e ∈ entries := by
  induction entries with
  | nil => exact .inl (List.mem_singleton.mp h)
  | cons e' rest ih =>
    obtain ⟨k, b⟩ := e'
    by_cases hName : k = name
    · rw [insert, if_pos hName] at h
      rcases List.mem_cons.mp h with h | h
      · exact .inl (hName ▸ h)
      · exact .inr (List.mem_cons_of_mem _ h)
    · rw [insert, if_neg hName] at h
      rcases List.mem_cons.mp h with h | h
      · exact .inr (h ▸ List.mem_cons_self)
      · rcases ih h with h | h
        · exact .inl h
        · exact .inr (List.mem_cons_of_mem _ h)

theorem mem_merge {left right : Entries α} {e : String × α} (h : e ∈ left.merge right) :
    e ∈ left ∨ e ∈ right := by
  induction right generalizing left with
  | nil => exact .inl h
  | cons e' rest ih =>
    rcases ih h with h | h
    · rcases mem_insert h with h | h
      · exact .inr (h ▸ List.mem_cons_self)
      · exact .inl h
    · exact .inr (List.mem_cons_of_mem _ h)

theorem mem_of_mem_ofList {entries : List (String × α)} {e : String × α} (h : e ∈ ofList entries) :
    e ∈ entries := by
  rcases mem_merge h with h | h
  · cases h
  · exact h

theorem mem_of_get?_ofList {entries : List (String × α)} {name : String} {a : α}
    (h : (ofList entries).get? name = some a) : (name, a) ∈ entries := mem_of_mem_ofList (mem_of_get? h)

/-- What is found under a name, wherever the name comes from, has been declared under it. -/
theorem mem_of_chosen {entries : List (String × α)} {chosen : Option String} {a : α}
    (h : chosen.bind (ofList entries).get? = some a) : ∃ name, (name, a) ∈ entries := by
  obtain ⟨name, _, hFound⟩ := Option.bind_eq_some_iff.mp h
  exact ⟨name, mem_of_get?_ofList hFound⟩

/-! ## Mapped values -/

variable {β : Type} (f : α → β)

def mapValues (entries : Entries α) : Entries β := entries.map fun e => (e.1, f e.2)

theorem mapValues_insert (name : String) (a : α) (entries : Entries α) :
    mapValues f (entries.insert name a) = (mapValues f entries).insert name (f a) := by
  induction entries with
  | nil => rfl
  | cons e rest ih =>
    obtain ⟨k, b⟩ := e
    by_cases hName : k = name
    · simp only [insert, mapValues, List.map_cons, if_pos hName]
    · simp only [insert, mapValues, List.map_cons, if_neg hName] at ih ⊢
      rw [ih]

theorem mapValues_merge (left right : Entries α) :
    mapValues f (left.merge right) = (mapValues f left).merge (mapValues f right) := by
  induction right generalizing left with
  | nil => rfl
  | cons e rest ih =>
    have hStep : left.merge (e :: rest) = (left.insert e.1 e.2).merge rest := rfl
    rw [hStep, ih, mapValues_insert]
    rfl

theorem mapValues_ofList (entries : List (String × α)) :
    mapValues f (ofList entries) = ofList (mapValues f entries) := mapValues_merge f [] entries

theorem keys_mapValues (entries : Entries α) : (mapValues f entries).keys = entries.keys := List.map_map

theorem get?_mapValues (entries : Entries α) (name : String) :
    (mapValues f entries).get? name = (entries.get? name).map f := get?_map (fun _ => f) entries name

end JsonShapes.Entries
