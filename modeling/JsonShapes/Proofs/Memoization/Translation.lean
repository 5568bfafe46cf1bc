import JsonShapes.Proofs.Memoization.Running
import JsonShapes.Proofs.Parts

/-! # Stores that hold translations

Where one interpretation is the translation of another at every way to make a schema, building a schema by
the one leads to the translation of the store to which building it by the other leads, and following a handle
likewise. Thunks and keys may be shared in any way: both stores answer from the same place. Two interpretations
that are read side by side are each a translation of the pair.
-/
namespace JsonShapes
set_option autoImplicit false

variable {σ τ α β γ δ ρ π : Type}

/-- From the translation of a state `y` leads where `x` leads from the state itself, in translation. -/
def Carries {m : Type → Type} [Monad m] (f : σ → τ) (g : α → β) (x : StateT σ m α) (y : StateT τ m β) : Prop :=
  ∀ s, y.run (f s) = Prod.map g f <$> x.run s

namespace Carries
variable {m : Type → Type} [Monad m] [LawfulMonad m] {f : σ → τ} {g : α → β} {h : γ → δ}

theorem pure (a : α) : Carries f g (Pure.pure a : StateT σ m α) (Pure.pure (g a)) := by
  intro s
  rw [StateT.run_pure, StateT.run_pure, map_pure, Prod.map_apply]

theorem pure_of_eq {a : α} {b : β} (hab : g a = b) :
    Carries f g (Pure.pure a : StateT σ m α) (Pure.pure b) := hab ▸ pure a

theorem bind {x : StateT σ m α} {y : StateT τ m β} {k : α → StateT σ m γ} {l : β → StateT τ m δ}
    (hxy : Carries f g x y) (hkl : ∀ a, Carries f h (k a) (l (g a))) : Carries f h (x >>= k) (y >>= l) := by
  intro s
  rw [StateT.run_bind, StateT.run_bind, hxy s, bind_map_left, map_bind]
  exact bind_congr fun p => hkl p.1 p.2

theorem get : Carries f f (MonadState.get : StateT σ m σ) MonadState.get := by
  intro s
  rw [StateT.run_get, StateT.run_get, map_pure, Prod.map_apply]

theorem modifyGet {k : σ → α × σ} {l : τ → β × τ} (hkl : ∀ s, l (f s) = Prod.map g f (k s)) :
    Carries f g (modifyGet k : StateT σ m α) (modifyGet l) := by
  intro s
  rw [StateT.run_modifyGet, StateT.run_modifyGet, map_pure, hkl]

theorem modify {k : σ → σ} {l : τ → τ} (hkl : ∀ s, l (f s) = f (k s)) :
    Carries f id (modify k : StateT σ m PUnit) (modify l) :=
  modifyGet fun s => congrArg (Prod.mk PUnit.unit) (hkl s)

end Carries

/-! ## Registries -/

def Definition.map (f : ρ → π) (d : Definition τ ρ) : Definition τ π :=
  ⟨d.id, d.site, d.thunk, d.value.map f⟩

namespace Registry

def map (f : ρ → π) (r : Registry τ ρ) : Registry τ π := ⟨r.definitions.map (Definition.map f), r.runs⟩

theorem define_map (f : ρ → π) (r : Registry τ ρ) (id : String) (site : Nat) (thunk : τ) :
    (r.map f).define id site thunk = ((r.define id site thunk).1, (r.define id site thunk).2.map f) := by
  have hFind : (r.map f).definitions.findIdx? (matching id site) =
      r.definitions.findIdx? (matching id site) := by
    rw [map, List.findIdx?_map]
    rfl
  unfold define
  rw [hFind]
  cases r.definitions.findIdx? (matching id site) with
  | some handle => rfl
  | none => simp [map, Definition.map]

theorem definition?_map (f : ρ → π) (r : Registry τ ρ) (handle : Nat) :
    (r.map f).definition? handle = (r.definition? handle).map (Definition.map f) := List.getElem?_map

theorem settle_map (f : ρ → π) (r : Registry τ ρ) (handle : Nat) (v : ρ) :
    (r.map f).settle handle (f v) = (r.settle handle v).map f := by
  have hDefinitions : ((r.map f).settle handle (f v)).definitions =
      ((r.settle handle v).map f).definitions := by
    apply List.ext_getElem?
    intro i
    rw [getElem?_settle, map, map, List.getElem?_map, List.getElem?_map, getElem?_settle, Option.map_map,
      Option.map_map]
    apply congrArg (Option.map · _)
    funext d
    simp only [Function.comp_apply, Definition.map]
    split
    · cases d.value <;> rfl
    · rfl
  exact congrArg (fun definitions => (⟨definitions, r.runs⟩ : Registry τ π)) hDefinitions

end Registry

/-- `f` translates the part of a state as `g` translates what its registry holds. -/
structure Part.Translates (f : σ → τ) (g : ρ → π) (part : Part σ (Registry δ ρ))
    (part' : Part τ (Registry δ π)) : Prop where
  get : ∀ s, part'.get (f s) = (part.get s).map g
  modify : ∀ {k l}, (∀ r : Registry δ ρ, l (r.map g) = (k r).map g) →
    ∀ s, part'.modify l (f s) = f (part.modify k s)

theorem Registry.force_carries {m : Type → Type} [Monad m] [LawfulMonad m] {f : σ → τ} {g : ρ → π}
    {part : Part σ (Registry δ ρ)} {part' : Part τ (Registry δ π)} (hPart : part.Translates f g part')
    {build : δ → StateT σ m ρ} {build' : δ → StateT τ m π}
    (hBuild : ∀ thunk, Carries f g (build thunk) (build' thunk)) (handle : Nat) :
    Carries f (Option.map g) (force part build handle) (force part' build' handle) := by
  apply Carries.get.bind
  intro s
  rw [hPart.get, definition?_map]
  cases (part.get s).definition? handle with
  | none => exact Carries.pure none
  | some d =>
    cases hValue : d.value with
    | some v =>
      simp only [Option.map_some, Definition.map, hValue]
      exact Carries.pure (some v)
    | none =>
      simp only [Option.map_some, Definition.map, hValue, Option.map_none]
      refine (Carries.modify (hPart.modify fun r => rfl)).bind fun _ => ?_
      refine (hBuild d.thunk).bind fun v => ?_
      refine (Carries.modify (hPart.modify fun r => settle_map g r handle v)).bind fun _ => ?_
      exact Carries.pure (some v)

/-! ## Stores -/

namespace Cache

def map (f : ρ → π) (c : Cache ρ) : Cache π := ⟨c.entries.map fun e => (e.1, f e.2)⟩

theorem get?_map (f : ρ → π) (c : Cache ρ) (key : SchemaKey) :
    (c.map f).get? key = (c.get? key).map f := by
  obtain ⟨entries⟩ := c
  induction entries with
  | nil => rfl
  | cons e rest ih =>
    obtain ⟨k, r⟩ := e
    simp only [map, get?, List.map_cons] at ih ⊢
    rw [List.lookup_cons, List.lookup_cons, ih]
    cases key == k <;> rfl

theorem insert_map (f : ρ → π) (c : Cache ρ) (key : SchemaKey) (built : ρ) :
    (c.map f).insert key (f built) = (f (c.insert key built).1, (c.insert key built).2.map f) := by
  unfold insert
  rw [get?_map]
  cases c.get? key with
  | some kept => rfl
  | none => simp [map]

end Cache

namespace Store

def map (f : ρ → π) (s : Store ρ) : Store π := ⟨s.registry.map f, s.cache.map f, s.made⟩

theorem registryPart_translates (f : ρ → π) :
    Part.Translates (map f) f (registryPart (ρ := ρ)) registryPart where
  get _ := rfl
  modify h s := congrArg (fun registry => (⟨registry, s.cache.map f, s.made⟩ : Store π)) (h s.registry)

/-! ## Building -/

section
variable (f : ρ → π)

theorem define_carries (link : Link) :
    Carries (map f) id (define link : StateM (Store ρ) Nat) (define link) := by
  apply Carries.modifyGet
  intro s
  rw [map, Registry.define_map]
  rfl

theorem recordMake_carries (key : Option SchemaKey) :
    Carries (map f) id (recordMake key : StateM (Store ρ) Unit) (recordMake key) :=
  Carries.modify fun _ => rfl

theorem insert_carries (key : SchemaKey) (built : ρ) :
    Carries (map f) f (insert key built : StateM (Store ρ) ρ) (insert key (f built)) := by
  apply Carries.modifyGet
  intro s
  rw [map, Cache.insert_map]
  rfl

theorem make_carries (key : Option SchemaKey) {read : StateM (Store ρ) ρ} {read' : StateM (Store π) π}
    (hRead : Carries (map f) f read read') : Carries (map f) f (make key read) (make key read') := by
  cases key with
  | none => exact (recordMake_carries f none).bind fun _ => hRead
  | some k =>
    apply Carries.get.bind
    intro s
    rw [map, Cache.get?_map]
    cases s.cache.get? k with
    | some kept => exact Carries.pure kept
    | none =>
      refine (recordMake_carries f (some k)).bind fun _ => ?_
      exact hRead.bind fun built => insert_carries f k built

end

end Store

/-- `f` translates what the one interpretation makes into what the other makes of the translations. -/
structure Interpretation.Translates (f : ρ → π) (I : Interpretation σ ρ) (J : Interpretation σ π) : Prop where
  kind : ∀ k, f (I.kind k) = J.kind k
  literal : ∀ values, f (I.literal values) = J.literal values
  nullable : ∀ a, f (I.nullable a) = J.nullable (f a)
  object : ∀ as, f (I.object as) = J.object (as.map fun p => (p.1, f p.2))
  partialObject : ∀ as, f (I.partialObject as) = J.partialObject (as.map fun p => (p.1, f p.2))
  record : ∀ a, f (I.record a) = J.record (f a)
  array : ∀ a, f (I.array a) = J.array (f a)
  tuple : ∀ as, f (I.tuple as) = J.tuple (as.map f)
  union : ∀ as, f (I.union as) = J.union (as.map f)
  inter : ∀ a b, f (I.inter a b) = J.inter (f a) (f b)
  tagged : ∀ tag as, f (I.tagged tag as) = J.tagged tag (as.map fun p => (p.1, f p.2))
  refine : ∀ a holds expected, f (I.refine a holds expected) = J.refine (f a) holds expected
  lazy : ∀ id ref, f (I.lazy id ref) = J.lazy id ref

namespace Schema
variable {f : ρ → π} {I : Interpretation Nat ρ} {J : Interpretation Nat π}

theorem buildEach_carries {ss : List Schema}
    (h : ∀ s ∈ ss, Carries (Store.map f) f (s.build I) (s.build J)) :
    Carries (Store.map f) (List.map f) (buildEach I ss) (buildEach J ss) := by
  induction ss with
  | nil => exact Carries.pure []
  | cons s rest ih =>
    obtain ⟨hHead, hRest⟩ := List.forall_mem_cons.mp h
    exact hHead.bind fun r => (ih hRest).bind fun rs => Carries.pure (r :: rs)

theorem buildNamed_carries {ss : List (String × Schema)}
    (h : ∀ s ∈ ss.map (·.2), Carries (Store.map f) f (s.build I) (s.build J)) :
    Carries (Store.map f) (List.map fun p => (p.1, f p.2)) (buildNamed I ss) (buildNamed J ss) := by
  induction ss with
  | nil => exact Carries.pure []
  | cons e rest ih =>
    obtain ⟨hHead, hRest⟩ := List.forall_mem_cons.mp h
    exact hHead.bind fun r => (ih hRest).bind fun rs => Carries.pure ((e.1, r) :: rs)

theorem build_carries (h : I.Translates f J) (s : Schema) :
    Carries (Store.map f) f (s.build I) (s.build J) := by
  induction s using parts_induction with
  | step s ih =>
    cases s with
    | kind k => exact Carries.pure_of_eq (h.kind k)
    | literal values => exact Carries.pure_of_eq (h.literal values)
    | nullable or =>
      exact (ih or List.mem_cons_self).bind fun r => Carries.pure_of_eq (h.nullable r)
    | object props =>
      exact (buildNamed_carries ih).bind fun rs => Carries.pure_of_eq (h.object rs)
    | partialObject props =>
      exact (buildNamed_carries ih).bind fun rs => Carries.pure_of_eq (h.partialObject rs)
    | record of => exact (ih of List.mem_cons_self).bind fun r => Carries.pure_of_eq (h.record r)
    | array of => exact (ih of List.mem_cons_self).bind fun r => Carries.pure_of_eq (h.array r)
    | tuple slots => exact (buildEach_carries ih).bind fun rs => Carries.pure_of_eq (h.tuple rs)
    | union members => exact (buildEach_carries ih).bind fun rs => Carries.pure_of_eq (h.union rs)
    | inter left right =>
      refine (ih left List.mem_cons_self).bind fun l => ?_
      refine (ih right (List.mem_cons_of_mem _ List.mem_cons_self)).bind fun r => ?_
      exact Carries.pure_of_eq (h.inter l r)
    | tagged tag members =>
      exact (buildNamed_carries ih).bind fun rs => Carries.pure_of_eq (h.tagged tag rs)
    | refine of holds expected =>
      refine (ih of List.mem_cons_self).bind fun r => ?_
      exact Carries.pure_of_eq (h.refine r holds expected)
    | lazy link =>
      refine (Store.define_carries f link).bind fun handle => ?_
      exact Carries.pure_of_eq (h.lazy link.id handle)
    | make key body => exact Store.make_carries f key (ih body List.mem_cons_self)

end Schema

namespace Store
variable {f : ρ → π} {I : Interpretation Nat ρ} {J : Interpretation Nat π}

theorem build_carries (h : I.Translates f J) (s : Schema) : Carries (map f) f (build I s) (build J s) :=
  fun store => congrArg some (s.build_carries h store)

theorem resolve_carries (h : I.Translates f J) (definitions : Definitions) (handle : Nat) :
    Carries (map f) f (resolve I definitions handle) (resolve J definitions handle) := by
  refine (Registry.force_carries (registryPart_translates f) ?_ handle).bind ?_
  · intro target
    cases definitions.get? target with
    | none => exact fun _ => rfl
    | some s => exact build_carries h s
  · intro found
    cases found with
    | none => exact fun _ => rfl
    | some r => exact Carries.pure r

end Store

/-! ## Interpretations side by side -/

namespace Interpretation

def pair (I : Interpretation σ ρ) (J : Interpretation σ π) : Interpretation σ (ρ × π) where
  kind k := (I.kind k, J.kind k)
  literal values := (I.literal values, J.literal values)
  nullable a := (I.nullable a.1, J.nullable a.2)
  object as := (I.object (as.map fun p => (p.1, p.2.1)), J.object (as.map fun p => (p.1, p.2.2)))
  partialObject as :=
    (I.partialObject (as.map fun p => (p.1, p.2.1)), J.partialObject (as.map fun p => (p.1, p.2.2)))
  record a := (I.record a.1, J.record a.2)
  array a := (I.array a.1, J.array a.2)
  tuple as := (I.tuple (as.map (·.1)), J.tuple (as.map (·.2)))
  union as := (I.union (as.map (·.1)), J.union (as.map (·.2)))
  inter a b := (I.inter a.1 b.1, J.inter a.2 b.2)
  tagged tag as := (I.tagged tag (as.map fun p => (p.1, p.2.1)), J.tagged tag (as.map fun p => (p.1, p.2.2)))
  refine a holds expected := (I.refine a.1 holds expected, J.refine a.2 holds expected)
  lazy id ref := (I.lazy id ref, J.lazy id ref)

theorem pair_translates_fst (I : Interpretation σ ρ) (J : Interpretation σ π) :
    (pair I J).Translates Prod.fst I := by
  constructor <;> intros <;> rfl

theorem pair_translates_snd (I : Interpretation σ ρ) (J : Interpretation σ π) :
    (pair I J).Translates Prod.snd J := by
  constructor <;> intros <;> rfl

end Interpretation

end JsonShapes
