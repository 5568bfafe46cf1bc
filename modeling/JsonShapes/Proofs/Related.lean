import JsonShapes.Proofs.Entries
import JsonShapes.Proofs.Lists
import JsonShapes.Schema.Interpretation

/-! # Related readings of a schema

Two interpretations that keep a relation at every way to make a schema keep it at every schema, as soon
as they keep it at the links. What is shown about a pair of readings therefore needs one argument for
each combinator; the induction over schemas is done here once.
-/
namespace JsonShapes
set_option autoImplicit false

namespace Entries
variable {α β : Type} {R : α → β → Prop}

/-- The same names in the same order, with related values. -/
def Related (R : α → β → Prop) (as : Entries α) (bs : Entries β) : Prop :=
  List.Forall₂ (fun a b => a.1 = b.1 ∧ R a.2 b.2) as bs

theorem related_refl (as : Entries α) : Related Eq as as :=
  List.forall₂_same.mpr fun _ _ => ⟨rfl, rfl⟩

theorem Related.eq {as bs : Entries α} (h : Related Eq as bs) : as = bs := by
  induction h with
  | nil => rfl
  | cons hHead _ ih => exact congrArg₂ List.cons (Prod.ext hHead.1 hHead.2) ih

theorem Related.keys_eq {as : Entries α} {bs : Entries β} (h : Related R as bs) :
    as.keys = bs.keys := by
  induction h with
  | nil => rfl
  | cons hHead _ ih => exact congrArg₂ List.cons hHead.1 ih

theorem Related.insert {as : Entries α} {bs : Entries β} (h : Related R as bs) (name : String)
    {a : α} {b : β} (hab : R a b) : Related R (as.insert name a) (bs.insert name b) := by
  induction h with
  | nil => exact .cons ⟨rfl, hab⟩ .nil
  | @cons x y xs ys hHead hRest ih =>
    obtain ⟨k, x⟩ := x
    obtain ⟨l, y⟩ := y
    obtain ⟨hKey, hxy⟩ := hHead
    cases hKey
    by_cases hk : k = name
    · simp only [Entries.insert, if_pos hk]
      exact .cons ⟨rfl, hab⟩ hRest
    · simp only [Entries.insert, if_neg hk]
      exact .cons ⟨rfl, hxy⟩ ih

theorem Related.merge {as : Entries α} {bs : Entries β} (h : Related R as bs)
    {cs : Entries α} {ds : Entries β} (h' : Related R cs ds) :
    Related R (as.merge cs) (bs.merge ds) := by
  unfold Entries.merge
  induction h' generalizing as bs with
  | nil => exact h
  | @cons x y _ _ hHead _ ih =>
    rw [List.foldl_cons, List.foldl_cons, hHead.1]
    exact ih (h.insert y.1 hHead.2)

theorem Related.ofList {as : Entries α} {bs : Entries β} (h : Related R as bs) :
    Related R (Entries.ofList as) (Entries.ofList bs) := by
  have hNil : Related R ([] : Entries α) ([] : Entries β) := .nil
  exact hNil.merge h

theorem Related.get? {as : Entries α} {bs : Entries β} (h : Related R as bs) (name : String) :
    Option.Rel R (as.get? name) (bs.get? name) := by
  induction h with
  | nil => exact .none
  | @cons x y xs ys hHead _ ih =>
    obtain ⟨k, x⟩ := x
    obtain ⟨l, y⟩ := y
    obtain ⟨hKey, hxy⟩ := hHead
    cases hKey
    rw [get?_cons, get?_cons]
    by_cases hk : name = k
    · rw [if_pos hk, if_pos hk]
      exact .some hxy
    · rw [if_neg hk, if_neg hk]
      exact ih

theorem Related.get?_left {as : Entries α} {bs : Entries β} (h : Related R as bs) {name : String} {a : α}
    (ha : as.get? name = some a) : ∃ b, bs.get? name = some b ∧ R a b := by
  have hFound := h.get? name
  rw [ha] at hFound
  cases hb : bs.get? name with
  | none =>
    rw [hb] at hFound
    cases hFound
  | some b =>
    rw [hb] at hFound
    exact ⟨b, rfl, Option.rel_some_some.mp hFound⟩

theorem Related.get?_right {as : Entries α} {bs : Entries β} (h : Related R as bs) {name : String} {b : β}
    (hb : bs.get? name = some b) : ∃ a, as.get? name = some a ∧ R a b := by
  have hFound := h.get? name
  rw [hb] at hFound
  cases ha : as.get? name with
  | none =>
    rw [ha] at hFound
    cases hFound
  | some a =>
    rw [ha] at hFound
    exact ⟨a, rfl, Option.rel_some_some.mp hFound⟩

theorem Related.map {γ δ : Type} {S : γ → δ → Prop} {as : Entries α} {bs : Entries β} (h : Related R as bs)
    {f : α → γ} {g : β → δ} (hStep : ∀ a b, R a b → S (f a) (g b)) :
    Related S (as.map fun e => (e.1, f e.2)) (bs.map fun e => (e.1, g e.2)) := by
  rw [Related, List.forall₂_map_left_iff, List.forall₂_map_right_iff]
  exact h.imp fun a b hab => ⟨hab.1, hStep a.2 b.2 hab.2⟩

theorem related_map {τ : Type} {es : Entries τ} {f : τ → α} {g : τ → β} (h : ∀ e ∈ es, R (f e.2) (g e.2)) :
    Related R (es.map fun e => (e.1, f e.2)) (es.map fun e => (e.1, g e.2)) := by
  rw [Related, List.forall₂_map_left_iff, List.forall₂_map_right_iff]
  exact List.forall₂_same.mpr fun e he => ⟨rfl, h e he⟩

theorem Related.selected {as : Entries α} {bs : Entries β} (h : Related R as bs)
    (name : Option String) :
    (name.bind as.get? = none ∧ name.bind bs.get? = none) ∨
      ∃ a b, name.bind as.get? = some a ∧ name.bind bs.get? = some b ∧ R a b := by
  cases name with
  | none => exact .inl ⟨rfl, rfl⟩
  | some name =>
    have hFound := h.get? name
    rw [Option.bind_some, Option.bind_some]
    generalize as.get? name = x at hFound ⊢
    generalize bs.get? name = y at hFound ⊢
    cases hFound with
    | none => exact .inl ⟨rfl, rfl⟩
    | some hab => exact .inr ⟨_, _, rfl, rfl, hab⟩

theorem Related.present {as : Entries α} {bs : Entries β} (h : Related R as bs)
    (entries : Entries Value) :
    Related (fun a b => R a.1 b.1 ∧ a.2 = b.2)
      (as.filterMap fun p => (entries.get? p.1).map fun raw => (p.1, p.2, raw))
      (bs.filterMap fun p => (entries.get? p.1).map fun raw => (p.1, p.2, raw)) := by
  induction h with
  | nil => exact .nil
  | @cons x y _ _ hHead _ ih =>
    obtain ⟨k, x⟩ := x
    obtain ⟨l, y⟩ := y
    obtain ⟨hKey, hxy⟩ := hHead
    cases hKey
    rw [List.filterMap_cons, List.filterMap_cons]
    cases entries.get? k with
    | none => exact ih
    | some raw => exact .cons ⟨rfl, hxy, rfl⟩ ih

end Entries

/-- What every entry can be related to, they can be related to together. -/
theorem Entries.exists_related {α β : Type} {R : α → β → Prop} {as : Entries α} (h : ∀ a ∈ as, ∃ b, R a.2 b) :
    ∃ bs, Related R as bs := by
  apply exists_forall₂
  intro a ha
  obtain ⟨b, hb⟩ := h a ha
  exact ⟨(a.1, b), rfl, hb⟩

/-- Both interpretations keep `R` at every way to make a schema, links apart. -/
structure Interpretation.Related {σ τ ρ π : Type} (R : ρ → π → Prop) (I : Interpretation σ ρ)
    (J : Interpretation τ π) : Prop where
  kind : ∀ k, R (I.kind k) (J.kind k)
  literal : ∀ values, R (I.literal values) (J.literal values)
  nullable : ∀ {a b}, R a b → R (I.nullable a) (J.nullable b)
  object : ∀ {as bs}, Entries.Related R as bs → R (I.object as) (J.object bs)
  partialObject : ∀ {as bs}, Entries.Related R as bs → R (I.partialObject as) (J.partialObject bs)
  record : ∀ {a b}, R a b → R (I.record a) (J.record b)
  array : ∀ {a b}, R a b → R (I.array a) (J.array b)
  tuple : ∀ {as bs}, List.Forall₂ R as bs → R (I.tuple as) (J.tuple bs)
  union : ∀ {as bs}, List.Forall₂ R as bs → R (I.union as) (J.union bs)
  inter : ∀ {a b c d}, R a b → R c d → R (I.inter a c) (J.inter b d)
  tagged : ∀ tag {as bs}, Entries.Related R as bs → R (I.tagged tag as) (J.tagged tag bs)
  refine : ∀ holds expected {a b}, R a b → R (I.refine a holds expected) (J.refine b holds expected)

namespace Schema
variable {ρ π : Type} {R : ρ → π → Prop} {I : Interpretation Link ρ} {J : Interpretation Link π}

mutual

theorem unfold_related (h : I.Related R J) (s : Schema)
    (hLinks : ∀ link ∈ s.links, R (I.lazy link.id link) (J.lazy link.id link)) :
    R (s.unfold I) (s.unfold J) := by
  cases s with
  | kind k => exact h.kind k
  | literal values => exact h.literal values
  | nullable or => exact h.nullable (unfold_related h or hLinks)
  | object props => exact h.object (unfoldNamed_related h props hLinks)
  | partialObject props => exact h.partialObject (unfoldNamed_related h props hLinks)
  | record of => exact h.record (unfold_related h of hLinks)
  | array of => exact h.array (unfold_related h of hLinks)
  | tuple slots => exact h.tuple (unfoldEach_related h slots hLinks)
  | union members => exact h.union (unfoldEach_related h members hLinks)
  | inter left right =>
    have hLeft := unfold_related h left fun link hLink => hLinks link (List.mem_append_left _ hLink)
    have hRight := unfold_related h right fun link hLink => hLinks link (List.mem_append_right _ hLink)
    exact h.inter hLeft hRight
  | tagged tag members => exact h.tagged tag (unfoldNamed_related h members hLinks)
  | refine of holds expected => exact h.refine holds expected (unfold_related h of hLinks)
  | lazy link => exact hLinks link List.mem_cons_self
  | make key body => exact unfold_related h body hLinks

theorem unfoldEach_related (h : I.Related R J) (ss : List Schema)
    (hLinks : ∀ link ∈ linksEach ss, R (I.lazy link.id link) (J.lazy link.id link)) :
    List.Forall₂ R (unfoldEach I ss) (unfoldEach J ss) := by
  cases ss with
  | nil => exact .nil
  | cons s rest =>
    have hHead := unfold_related h s fun link hLink => hLinks link (List.mem_append_left _ hLink)
    have hRest := unfoldEach_related h rest fun link hLink => hLinks link (List.mem_append_right _ hLink)
    exact .cons hHead hRest

theorem unfoldNamed_related (h : I.Related R J) (ss : List (String × Schema))
    (hLinks : ∀ link ∈ linksNamed ss, R (I.lazy link.id link) (J.lazy link.id link)) :
    Entries.Related R (unfoldNamed I ss) (unfoldNamed J ss) := by
  cases ss with
  | nil => exact .nil
  | cons e rest =>
    obtain ⟨name, s⟩ := e
    have hHead := unfold_related h s fun link hLink => hLinks link (List.mem_append_left _ hLink)
    have hRest := unfoldNamed_related h rest fun link hLink => hLinks link (List.mem_append_right _ hLink)
    exact .cons ⟨rfl, hHead⟩ hRest

end

end Schema

end JsonShapes
