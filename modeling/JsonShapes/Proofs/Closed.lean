import JsonShapes.Proofs.Memoization.Contents
import JsonShapes.Proofs.Parts

/-! # Properties that every way to make a schema keeps

A property of representations that every combinator keeps, and that all references have, is a property of
what is read from any schema. It is then also promised of what is built in a store that holds nothing
without it, whatever thunks and keys schemas share.
-/
namespace JsonShapes
set_option autoImplicit false

structure Interpretation.Closed {σ ρ : Type} (P : ρ → Prop) (I : Interpretation σ ρ) : Prop where
  kind : ∀ k, P (I.kind k)
  literal : ∀ values, P (I.literal values)
  nullable : ∀ {a}, P a → P (I.nullable a)
  object : ∀ {as : Entries ρ}, (∀ p ∈ as, P p.2) → P (I.object as)
  partialObject : ∀ {as : Entries ρ}, (∀ p ∈ as, P p.2) → P (I.partialObject as)
  record : ∀ {a}, P a → P (I.record a)
  array : ∀ {a}, P a → P (I.array a)
  tuple : ∀ {as}, (∀ a ∈ as, P a) → P (I.tuple as)
  union : ∀ {as}, (∀ a ∈ as, P a) → P (I.union as)
  inter : ∀ {a b}, P a → P b → P (I.inter a b)
  tagged : ∀ tag {as : Entries ρ}, (∀ p ∈ as, P p.2) → P (I.tagged tag as)
  refine : ∀ {a} holds expected, P a → P (I.refine a holds expected)
  lazy : ∀ id ref, P (I.lazy id ref)

/-- What `Closed` asks of the constructor that the schema is made with. Where parts are named the representations of
them have the same names. -/
def Interpretation.ClosedAt {σ ρ : Type} (P : ρ → Prop) (I : Interpretation σ ρ) : Schema → Prop
  | .kind k => P (I.kind k)
  | .literal values => P (I.literal values)
  | .nullable _ => ∀ {a}, P a → P (I.nullable a)
  | .object props => ∀ {as : Entries ρ}, as.keys = Entries.keys props → (∀ p ∈ as, P p.2) → P (I.object as)
  | .partialObject props =>
    ∀ {as : Entries ρ}, as.keys = Entries.keys props → (∀ p ∈ as, P p.2) → P (I.partialObject as)
  | .record _ => ∀ {a}, P a → P (I.record a)
  | .array _ => ∀ {a}, P a → P (I.array a)
  | .tuple _ => ∀ {as}, (∀ a ∈ as, P a) → P (I.tuple as)
  | .union _ => ∀ {as}, (∀ a ∈ as, P a) → P (I.union as)
  | .inter _ _ => ∀ {a b}, P a → P b → P (I.inter a b)
  | .tagged tag members => ∀ {as : Entries ρ}, as.keys = Entries.keys members → (∀ p ∈ as, P p.2) →
    P (I.tagged tag as)
  | .refine _ holds expected => ∀ {a}, P a → P (I.refine a holds expected)
  | .lazy link => ∀ ref, P (I.lazy link.id ref)
  | .make _ _ => True

theorem Interpretation.Closed.at {σ ρ : Type} {P : ρ → Prop} {I : Interpretation σ ρ} (h : I.Closed P)
    (s : Schema) : I.ClosedAt P s := by
  cases s with
  | kind k => exact h.kind k
  | literal values => exact h.literal values
  | nullable _ => exact h.nullable
  | object _ => exact fun _ => h.object
  | partialObject _ => exact fun _ => h.partialObject
  | record _ => exact h.record
  | array _ => exact h.array
  | tuple _ => exact h.tuple
  | union _ => exact h.union
  | inter _ _ => exact h.inter
  | tagged tag _ => exact fun _ => h.tagged tag
  | refine _ holds expected => exact h.refine holds expected
  | lazy link => exact h.lazy link.id
  | make _ _ => trivial

namespace Schema
variable {ρ : Type} {P : ρ → Prop}

/-- Only the constructors that the schema is made with need to keep the property. -/
theorem unfold_closedAt {I : Interpretation Link ρ} {s : Schema} (h : ∀ t ∈ s.nodes, I.ClosedAt P t) :
    P (s.unfold I) := by
  induction s using parts_induction with
  | step s ih =>
    have hHere : I.ClosedAt P s := h s (nodes_eq s ▸ List.mem_cons_self)
    have hParts : ∀ t ∈ s.parts, P (t.unfold I) := fun t ht => ih t ht fun u hu => h u (mem_nodes_of_part ht hu)
    have hEach : ∀ ss : List Schema, (∀ t ∈ ss, P (t.unfold I)) → ∀ r ∈ unfoldEach I ss, P r := by
      intro ss hss r hr
      rw [unfoldEach_eq] at hr
      obtain ⟨t, ht, rfl⟩ := List.mem_map.mp hr
      exact hss t ht
    have hNamed : ∀ ss : List (String × Schema), (∀ t ∈ ss.map (·.2), P (t.unfold I)) →
        ∀ p ∈ unfoldNamed I ss, P p.2 := by
      intro ss hss p hp
      rw [unfoldNamed_eq] at hp
      obtain ⟨e, he, rfl⟩ := List.mem_map.mp hp
      exact hss e.2 (List.mem_map_of_mem he)
    have hNames : ∀ ss : List (String × Schema), Entries.keys (unfoldNamed I ss) = Entries.keys ss := by
      intro ss
      rw [unfoldNamed_eq]
      exact List.map_map
    cases s with
    | kind _ | literal _ => exact hHere
    | nullable of | record of | array of | refine of _ _ => exact hHere (hParts of List.mem_cons_self)
    | object props | partialObject props | tagged _ props => exact hHere (hNames props) (hNamed props hParts)
    | tuple items | union items => exact hHere (hEach items hParts)
    | inter left right =>
      exact hHere (hParts left List.mem_cons_self) (hParts right (List.mem_cons_of_mem _ List.mem_cons_self))
    | lazy link => exact hHere link
    | make key body => exact hParts body List.mem_cons_self

theorem unfold_closed {I : Interpretation Link ρ} (h : I.Closed P) (s : Schema) : P (s.unfold I) :=
  unfold_closedAt fun t _ => h.at t

theorem buildEach_closed {I : Interpretation Nat ρ} {ss : List Schema}
    (h : ∀ s ∈ ss, (Store.building P).Holds (s.build I) P) :
    (Store.building P).Holds (buildEach I ss) fun rs => ∀ r ∈ rs, P r := by
  induction ss with
  | nil => exact (Store.building P).pure (List.forall_mem_nil _)
  | cons s rest ih =>
    obtain ⟨hHead, hRest⟩ := List.forall_mem_cons.mp h
    refine (Store.building P).bind hHead fun r hr => ?_
    refine (Store.building P).bind (ih hRest) fun rs hrs => (Store.building P).pure ?_
    exact List.forall_mem_cons.mpr ⟨hr, hrs⟩

theorem buildNamed_closed {I : Interpretation Nat ρ} {ss : List (String × Schema)}
    (h : ∀ s ∈ ss.map (·.2), (Store.building P).Holds (s.build I) P) :
    (Store.building P).Holds (buildNamed I ss) fun rs => Entries.keys rs = Entries.keys ss ∧ ∀ p ∈ rs, P p.2 := by
  induction ss with
  | nil => exact (Store.building P).pure ⟨rfl, List.forall_mem_nil _⟩
  | cons e rest ih =>
    obtain ⟨hHead, hRest⟩ := List.forall_mem_cons.mp h
    refine (Store.building P).bind hHead fun r hr => ?_
    refine (Store.building P).bind (ih hRest) fun rs hrs => (Store.building P).pure ?_
    exact ⟨congrArg (e.1 :: ·) hrs.1, List.forall_mem_cons.mpr ⟨hr, hrs.2⟩⟩

theorem build_closedAt {I : Interpretation Nat ρ} {s : Schema} (h : ∀ t ∈ s.nodes, I.ClosedAt P t) :
    (Store.building P).Holds (s.build I) P := by
  induction s using parts_induction with
  | step s ih =>
    have hHere : I.ClosedAt P s := h s (nodes_eq s ▸ List.mem_cons_self)
    have hParts : ∀ t ∈ s.parts, (Store.building P).Holds (t.build I) P :=
      fun t ht => ih t ht fun u hu => h u (mem_nodes_of_part ht hu)
    cases s with
    | kind k => exact (Store.building P).pure hHere
    | literal values => exact (Store.building P).pure hHere
    | nullable or =>
      refine (Store.building P).bind (hParts or List.mem_cons_self) fun r hr => ?_
      exact (Store.building P).pure (hHere hr)
    | object props | partialObject props | tagged _ props =>
      refine (Store.building P).bind (buildNamed_closed hParts) fun rs hrs => ?_
      exact (Store.building P).pure (hHere hrs.1 hrs.2)
    | record of | array of | refine of _ _ =>
      refine (Store.building P).bind (hParts of List.mem_cons_self) fun r hr => ?_
      exact (Store.building P).pure (hHere hr)
    | tuple items | union items =>
      refine (Store.building P).bind (buildEach_closed hParts) fun rs hrs => ?_
      exact (Store.building P).pure (hHere hrs)
    | inter left right =>
      refine (Store.building P).bind (hParts left List.mem_cons_self) fun l hl => ?_
      refine (Store.building P).bind (hParts right (List.mem_cons_of_mem _ List.mem_cons_self)) fun r hr => ?_
      exact (Store.building P).pure (hHere hl hr)
    | lazy link =>
      refine (Store.building P).bind (Store.define_promise link) fun handle _ => ?_
      exact (Store.building P).pure (hHere handle)
    | make key body => exact Store.make_promise key (hParts body List.mem_cons_self)

theorem build_closed {I : Interpretation Nat ρ} (h : I.Closed P) (s : Schema) :
    (Store.building P).Holds (s.build I) P := build_closedAt fun t _ => h.at t

end Schema

end JsonShapes
