import JsonShapes.Proofs.Parts
import Mathlib.Data.Finset.Card

/-! # References between definitions

Following links comes to an end where a definition leads back to itself only through something that goes into
the value. How many definitions can still be come to from one, nothing of the kind being passed, is then a
rank that every link lowers. What is shown of all schemas by going to the parts, with shallower values where a
part is asked about something inside the value, and by following links, therefore takes no more links one
inside the other than there are definitions for each level of the value.
-/
namespace JsonShapes
set_option autoImplicit false

theorem Entries.forall_mem_mapped {α β : Type} {P : β → Prop} {f : α → β} {entries : Entries α}
    (h : ∀ a ∈ entries.map (·.2), P (f a)) : ∀ p ∈ entries.map fun e => (e.1, f e.2), P p.2 := by
  intro p hp
  obtain ⟨e, he, rfl⟩ := List.mem_map.mp hp
  exact h e.2 (List.mem_map_of_mem he)

namespace Schema

/-- The link stands in the schema with nothing around it that stops a search. -/
inductive Exposes (stops : Schema → Bool) (link : Link) : Schema → Prop
  | here : Exposes stops link (.lazy link)
  | part {s t : Schema} : stops s = false → t ∈ s.parts → Exposes stops link t → Exposes stops link s

/-- All links of the schema have definitions. -/
def Over (definitions : Definitions) (s : Schema) : Prop :=
  ∀ link ∈ s.links, link.target ∈ definitions.keys

theorem linksEach_eq (ss : List Schema) : linksEach ss = ss.flatMap links := by
  induction ss with
  | nil => rfl
  | cons s rest ih => rw [linksEach, ih, List.flatMap_cons]

theorem linksNamed_eq (ss : List (String × Schema)) : linksNamed ss = (ss.map (·.2)).flatMap links := by
  induction ss with
  | nil => rfl
  | cons e rest ih => rw [linksNamed, ih, List.map_cons, List.flatMap_cons]

theorem mem_links_of_part {s t : Schema} (ht : t ∈ s.parts) {link : Link} (h : link ∈ t.links) :
    link ∈ s.links := by
  cases s with
  | kind _ | literal _ | lazy _ => cases ht
  | nullable s | record s | array s | refine s _ _ | make _ s =>
    cases List.mem_singleton.mp ht
    exact h
  | object props | partialObject props | tagged _ props =>
    rw [links, linksNamed_eq, List.mem_flatMap]
    exact ⟨t, ht, h⟩
  | tuple items | union items =>
    rw [links, linksEach_eq, List.mem_flatMap]
    exact ⟨t, ht, h⟩
  | inter left right =>
    have hEither : t = left ∨ t = right := by simpa [parts] using ht
    rcases hEither with rfl | rfl
    · exact List.mem_append_left _ h
    · exact List.mem_append_right _ h

theorem Exposes.mem_links {stops : Schema → Bool} {link : Link} {s : Schema} (h : s.Exposes stops link) :
    link ∈ s.links := by
  induction h with
  | here => exact List.mem_cons_self
  | part _ ht _ ih => exact mem_links_of_part ht ih

theorem Over.part {definitions : Definitions} {s t : Schema} (h : s.Over definitions) (ht : t ∈ s.parts) :
    t.Over definitions := fun link hLink => h link (mem_links_of_part ht hLink)

end Schema

namespace Definitions
variable {definitions : Definitions} {stops : Schema → Bool}

/-- The definition of `b` is referred to from the definition of `a`, and nothing on the way stops. -/
def Refers (stops : Schema → Bool) (definitions : Definitions) (a b : String) : Prop :=
  ∃ s link, definitions.get? a = some s ∧ s.Exposes stops link ∧ link.target = b

/-- Every cycle of references passes through something that stops. -/
def Guarded (stops : Schema → Bool) (definitions : Definitions) : Prop :=
  ∀ name, ¬Relation.TransGen (definitions.Refers stops) name name

/-- It is enough that names can be put in an order which references go down. -/
theorem Guarded.of_order (order : String → Nat) (h : ∀ a b, definitions.Refers stops a b → order b < order a) :
    definitions.Guarded stops := by
  have hDown : ∀ a b, Relation.TransGen (definitions.Refers stops) a b → order b < order a := by
    intro a b hPath
    induction hPath with
    | single hStep => exact h _ _ hStep
    | tail _ hStep ih => exact (h _ _ hStep).trans ih
  exact fun name hCycle => Nat.lt_irrefl _ (hDown name name hCycle)

/-- All links in the definitions have definitions. -/
def Whole (definitions : Definitions) : Prop := ∀ e ∈ definitions, e.2.Over definitions

open Classical in
/-- How many definitions can be come to from a definition. -/
noncomputable def rank (stops : Schema → Bool) (definitions : Definitions) (name : String) : Nat :=
  (definitions.keys.toFinset.filter (Relation.TransGen (definitions.Refers stops) name)).card

theorem rank_lt_of_refers (hGuarded : definitions.Guarded stops) {a b : String}
    (hRefers : definitions.Refers stops a b) (hKnown : b ∈ definitions.keys) :
    definitions.rank stops b < definitions.rank stops a := by
  classical
  apply Finset.card_lt_card
  refine ⟨fun name hName => ?_, fun hSubset => ?_⟩
  · rw [Finset.mem_filter] at hName ⊢
    exact ⟨hName.1, hName.2.head hRefers⟩
  · have hMem := hSubset (Finset.mem_filter.mpr ⟨List.mem_toFinset.mpr hKnown, .single hRefers⟩)
    exact hGuarded b (Finset.mem_filter.mp hMem).2

theorem rank_lt_length (hGuarded : definitions.Guarded stops) {name : String} (hKnown : name ∈ definitions.keys) :
    definitions.rank stops name < definitions.length := by
  classical
  have hCard : definitions.keys.toFinset.card ≤ definitions.length :=
    (List.toFinset_card_le _).trans (List.length_map ..).le
  refine Nat.lt_of_lt_of_le (Finset.card_lt_card ⟨Finset.filter_subset _ _, fun hSubset => ?_⟩) hCard
  have hMem := hSubset (List.mem_toFinset.mpr hKnown)
  exact hGuarded name (Finset.mem_filter.mp hMem).2

/-- `E n d s` says that under the bound `n` the schema is good for values less deep than `d`. It follows from
the same for the parts, which are asked only about something inside the value if the schema stops, and takes a
unit of the bound to follow a link; of the bound `base` has to be left. -/
structure Descends (stops : Schema → Bool) (definitions : Definitions) (base : Nat)
    (E : Nat → Nat → Schema → Prop) : Prop where
  none : ∀ n s, E n 0 s
  step : ∀ n d s, (∀ link, s ≠ .lazy link) → s.Over definitions → base ≤ n → (∀ t ∈ s.parts, E n d t) →
    E n (if stops s then d + 1 else d) s
  link : ∀ n d link t, definitions.get? link.target = some t → E n d t → E (n + 1) d (.lazy link)

namespace Descends
variable {base : Nat} {E : Nat → Nat → Schema → Prop}

/-- All links that are met first lead to definitions of a rank below `k`. -/
theorem holds_of_rank (hE : Descends stops definitions base E) (hGuarded : definitions.Guarded stops)
    (hWhole : definitions.Whole) {n : Nat} {s : Schema} {k d : Nat} (hOver : s.Over definitions)
    (hRank : ∀ link, s.Exposes stops link → definitions.rank stops link.target < k)
    (hBound : k + definitions.length * d + base ≤ n) : E n (d + 1) s := by
  induction n using Nat.strong_induction_on generalizing s k d with
  | _ n ihBound =>
    induction s using Schema.parts_induction generalizing k d with
    | step s ih =>
      by_cases hLazy : ∃ link, s = .lazy link
      · obtain ⟨link, rfl⟩ := hLazy
        have hLower := hRank link .here
        obtain ⟨t, hFound⟩ := Entries.mem_keys_iff.mp (hOver link List.mem_cons_self)
        have hOver' := hWhole _ (Entries.mem_of_get? hFound)
        obtain ⟨n, rfl⟩ := Nat.exists_eq_succ_of_ne_zero (show n ≠ 0 by omega)
        apply hE.link n (d + 1) link t hFound
        apply ihBound n (Nat.lt_succ_self n) hOver' ?_ (show definitions.rank stops link.target + _ + _ ≤ n by omega)
        intro inner hInner
        exact rank_lt_of_refers hGuarded ⟨t, inner, hFound, hInner, rfl⟩ (hOver' inner hInner.mem_links)
      · have hNoLink : ∀ link, s ≠ .lazy link := fun link h => hLazy ⟨link, h⟩
        cases hStops : stops s with
        | true =>
          have hParts : ∀ t ∈ s.parts, E n d t := by
            intro t ht
            cases d with
            | zero => exact hE.none n t
            | succ d =>
              rw [Nat.mul_succ] at hBound
              apply ih t ht (hOver.part ht) (k := definitions.length) ?_ (by omega)
              intro link hExposed
              exact rank_lt_length hGuarded (hOver link (Schema.mem_links_of_part ht hExposed.mem_links))
          have hHere := hE.step n d s hNoLink hOver (by omega) hParts
          rwa [if_pos hStops] at hHere
        | false =>
          have hParts : ∀ t ∈ s.parts, E n (d + 1) t := fun t ht =>
            ih t ht (hOver.part ht) (fun link h => hRank link (.part hStops ht h)) hBound
          have hHere := hE.step n (d + 1) s hNoLink hOver (by omega) hParts
          rwa [if_neg (by simp [hStops])] at hHere

theorem holds (hE : Descends stops definitions base E) (hGuarded : definitions.Guarded stops)
    (hWhole : definitions.Whole) {n d : Nat} {s : Schema} (hOver : s.Over definitions)
    (hBound : definitions.length * (d + 1) + base ≤ n) : E n (d + 1) s := by
  apply hE.holds_of_rank hGuarded hWhole (k := definitions.length) hOver
  · intro link hExposed
    exact rank_lt_length hGuarded (hOver link hExposed.mem_links)
  · rw [Nat.mul_succ] at hBound
    omega

end Descends

end Definitions

end JsonShapes
