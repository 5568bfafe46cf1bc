import Mathlib.Data.Finset.Card
import Mathlib.Data.Finset.Dedup
import Mathlib.Data.List.Induction

/-! # First come, first kept

Of a list of pairs each key keeps the first of its values. Registries and caches only ever add what is new, so
what they hold at any time are the firsts of all that they have been given until then.
-/
namespace JsonShapes
set_option autoImplicit false

variable {κ α : Type} [DecidableEq κ]

def keepFirst (kept : List (κ × α)) (p : κ × α) : List (κ × α) :=
  if p.1 ∈ kept.map (·.1) then kept else kept ++ [p]

def firsts (given : List (κ × α)) : List (κ × α) := given.foldl keepFirst []

theorem firsts_concat (given : List (κ × α)) (p : κ × α) :
    firsts (given ++ [p]) = keepFirst (firsts given) p := by
  rw [firsts, List.foldl_append]
  rfl

theorem firsts_concat_of_mem {given : List (κ × α)} {p : κ × α} (h : p.1 ∈ (firsts given).map (·.1)) :
    firsts (given ++ [p]) = firsts given := by
  rw [firsts_concat, keepFirst, if_pos h]

theorem firsts_concat_of_not_mem {given : List (κ × α)} {p : κ × α}
    (h : p.1 ∉ (firsts given).map (·.1)) : firsts (given ++ [p]) = firsts given ++ [p] := by
  rw [firsts_concat, keepFirst, if_neg h]

theorem firsts_prefix (given later : List (κ × α)) : firsts given <+: firsts (given ++ later) := by
  induction later using List.reverseRecOn with
  | nil => rw [List.append_nil]
  | append_singleton later p ih =>
    rw [← List.append_assoc, firsts_concat, keepFirst]
    split
    · exact ih
    · exact ih.trans (List.prefix_append ..)

theorem mem_keys_firsts {given : List (κ × α)} {key : κ} :
    key ∈ (firsts given).map (·.1) ↔ key ∈ given.map (·.1) := by
  induction given using List.reverseRecOn with
  | nil => exact Iff.rfl
  | append_singleton given p ih =>
    rw [List.map_append, List.mem_append, List.map_singleton, List.mem_singleton]
    by_cases hKnown : p.1 ∈ (firsts given).map (·.1)
    · rw [firsts_concat_of_mem hKnown, ih]
      refine ⟨.inl, fun h => h.elim id fun hKey => ?_⟩
      subst hKey
      exact ih.mp hKnown
    · rw [firsts_concat_of_not_mem hKnown, List.map_append, List.mem_append, ih, List.map_singleton,
        List.mem_singleton]

theorem nodup_keys_firsts (given : List (κ × α)) : ((firsts given).map (·.1)).Nodup := by
  induction given using List.reverseRecOn with
  | nil => exact List.nodup_nil
  | append_singleton given p ih =>
    by_cases hKnown : p.1 ∈ (firsts given).map (·.1)
    · rw [firsts_concat_of_mem hKnown]
      exact ih
    · rw [firsts_concat_of_not_mem hKnown, List.map_append]
      refine List.nodup_append.mpr ⟨ih, List.pairwise_singleton _ _, ?_⟩
      intro key hKey key' hKey' hSame
      cases List.mem_singleton.mp hKey'
      subst hSame
      exact hKnown hKey

theorem length_firsts (given : List (κ × α)) :
    (firsts given).length = (given.map (·.1)).toFinset.card := by
  have hSame : ((firsts given).map (·.1)).toFinset = (given.map (·.1)).toFinset := by
    ext key
    rw [List.mem_toFinset, List.mem_toFinset, mem_keys_firsts]
  rw [← hSame, List.toFinset_card_of_nodup (nodup_keys_firsts given), List.length_map]

end JsonShapes
