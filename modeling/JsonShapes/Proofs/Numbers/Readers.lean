import JsonShapes.Proofs.Closed
import JsonShapes.Proofs.Memoization.Interpreters
import JsonShapes.Proofs.Memoization.Translation
import JsonShapes.Proofs.Numbers.Unison

/-! # Decoders that differ in numbers

A reader is an interpretation of schemas that decodes numbers in its own way and everything else as it is
usually decoded. Schemas without refinements cannot tell one reader from another, since nothing that they are
made of looks at a decoded number. All readers therefore give one outline, filled by each with its own values.
-/
namespace JsonShapes
set_option autoImplicit false

/-- What `f` makes of a number; other values stay as they are. -/
def Value.renumber (f : Number → Value) : Value → Value
  | num n => f n
  | v => v

structure Reader where
  kind : Kind → Decoder Nat
  refine : Decoder Nat → (Value → Bool) → String → Decoder Nat
  /-- What a number is decoded to. -/
  value : Number → Value
  scalar : ∀ n, (value n).kind ≠ .object
  run_kind : ∀ {m : Type → Type} [Monad m] [LawfulMonad m] (test : Nat → Test m) (follow : Nat → Check m)
    (k : Kind) (v : Value), (kind k).run test follow v =
      pure (if v.kind = k then .ok (v.renumber value) else Decoded.reject v k.expected)

namespace Reader

def interpretation (r : Reader) : Interpretation Nat (Decoder Nat) :=
  { Interpretation.decoding with kind := r.kind, refine := r.refine }

def interpreter (r : Reader) : Interpreter (Decoder Nat) (Decoded Value) :=
  { Interpreter.decoders with interpretation := r.interpretation }

end Reader

/-! ## Families of interpretations -/

section
variable {σ ρ ι : Type}

def Interpretation.family (J : ι → Interpretation σ ρ) : Interpretation σ (ι → ρ) where
  kind k i := (J i).kind k
  literal values i := (J i).literal values
  nullable a i := (J i).nullable (a i)
  object as i := (J i).object (Entries.mapValues (fun a => a i) as)
  partialObject as i := (J i).partialObject (Entries.mapValues (fun a => a i) as)
  record a i := (J i).record (a i)
  array a i := (J i).array (a i)
  tuple as i := (J i).tuple (as.map fun a => a i)
  union as i := (J i).union (as.map fun a => a i)
  inter a b i := (J i).inter (a i) (b i)
  tagged tag as i := (J i).tagged tag (Entries.mapValues (fun a => a i) as)
  refine a holds expected i := (J i).refine (a i) holds expected
  lazy id ref i := (J i).lazy id ref

theorem Interpretation.family_translates (J : ι → Interpretation σ ρ) (i : ι) :
    (family J).Translates (fun a => a i) (J i) := by
  constructor <;> intros <;> rfl

end

/-- Wherever references lead, if what is behind them runs in unison, then so do the decoders. -/
def Coherent (d : Reader → Decoder Nat) : Prop :=
  ∀ {m : Type → Type} [Monad m] [LawfulMonad m] (U : Unison Reader m) (test : Reader → Nat → Test m)
    (follow : Reader → Nat → Check m),
    (∀ handle, U.Checks Reader.value fun r => follow r handle) →
      U.Checks Reader.value fun r => (d r).run (test r) (follow r)

namespace Reader

theorem kind_coherent (k : Kind) : Coherent fun r => r.kind k := by
  intro m _ _ U test follow _ v
  simp only [run_kind]
  split
  · cases v with
    | num n => exact U.filled (.number n)
    | _ =>
      simp only [Value.renumber]
      exact U.same _
  · exact U.same _

theorem family_coherent {s : Schema} (h : s.Unrefined) :
    (Interpretation.family interpretation).ClosedAt Coherent s := by
  cases s with
  | kind k => exact kind_coherent k
  | literal values =>
    intro m _ _ U test follow _ v
    exact U.same _
  | nullable or =>
    intro d hd m _ _ U test follow hFollow
    exact U.nullable (hd U test follow hFollow)
  | object props =>
    intro ds _ hds m _ _ U test follow hFollow
    change U.Checks value fun r =>
      Check.object (Decoder.runNamed (test r) (follow r) (Entries.mapValues (fun d => d r) ds))
    simp only [Decoder.runNamed_mapValues]
    exact U.object fun p hp => hds p hp U test follow hFollow
  | partialObject props =>
    intro ds _ hds m _ _ U test follow hFollow
    change U.Checks value fun r =>
      Check.partialObject (Decoder.runNamed (test r) (follow r) (Entries.mapValues (fun d => d r) ds))
    simp only [Decoder.runNamed_mapValues]
    exact U.partialObject fun p hp => hds p hp U test follow hFollow
  | record of =>
    intro d hd m _ _ U test follow hFollow
    exact U.record (hd U test follow hFollow)
  | array of =>
    intro d hd m _ _ U test follow hFollow
    exact U.array (hd U test follow hFollow)
  | tuple slots =>
    intro ds hds m _ _ U test follow hFollow
    change U.Checks value fun r => Check.tuple (Decoder.runEach (test r) (follow r) (ds.map fun d => d r))
    simp only [Decoder.runEach_map]
    exact U.tuple fun d hd => hds d hd U test follow hFollow
  | union members =>
    intro ds hds m _ _ U test follow hFollow
    change U.Checks value fun r => Check.union (Decoder.runEach (test r) (follow r) (ds.map fun d => d r))
    simp only [Decoder.runEach_map]
    exact U.union fun d hd => hds d hd U test follow hFollow
  | inter left right =>
    intro d e hd he m _ _ U test follow hFollow
    exact U.inter Reader.scalar (hd U test follow hFollow) (he U test follow hFollow)
  | tagged tag members =>
    intro ds _ hds m _ _ U test follow hFollow
    change U.Checks value fun r =>
      Check.tagged tag (Decoder.runNamed (test r) (follow r) (Entries.mapValues (fun d => d r) ds))
    simp only [Decoder.runNamed_mapValues]
    exact U.tagged tag fun p hp => hds p hp U test follow hFollow
  | refine of holds expected => cases h
  | lazy link =>
    intro handle m _ _ U test follow hFollow
    exact U.lazy link.id (hFollow handle)
  | make key body => trivial

end Reader

/-! ## Stores of families -/

namespace Store
variable {ι κ ρ : Type} (P : κ → Prop) (f : ι → κ → ρ)

/-- Between translations of one store, runs that have their results from one result and stay translations. -/
def unison : Unison ι (StateT (Store ρ) Option) where
  Holds {α _} φ x := ∀ s : Store κ, s.All P → ∃ result : Option (α × Store κ),
    (∀ a t, result = some (a, t) → t.All P) ∧
      ∀ i, (x i).run (s.map (f i)) = result.map (Prod.map (φ i) (map (f i)))
  pure φ a s hAll := by
    refine ⟨some (a, s), ?_, fun i => rfl⟩
    intro _ _ hResult
    cases hResult
    exact hAll
  bind {α β γ δ φ ψ x k} hx hk s hAll := by
    obtain ⟨result, hKept, hFirst⟩ := hx s hAll
    cases result with
    | none =>
      refine ⟨none, nofun, fun i => ?_⟩
      rw [StateT.run_bind, hFirst i]
      rfl
    | some p =>
      obtain ⟨a, t⟩ := p
      obtain ⟨result, hKept', hRest⟩ := hk a t (hKept a t rfl)
      refine ⟨result, hKept', fun i => ?_⟩
      rw [StateT.run_bind, hFirst i]
      exact hRest i

variable {P f}

/-- A step that gives each member its translation of one result. -/
theorem unison_bind {c : StateT (Store κ) Option κ} {x : ι → StateT (Store ρ) Option ρ}
    (hPromise : (running P).Holds c P) (hx : ∀ i, Carries (map (f i)) (f i) c (x i)) {α β : Type} {φ : ι → α → β}
    {k : ι → ρ → StateT (Store ρ) Option β} (hRest : ∀ a, P a → (unison P f).Holds φ fun i => k i (f i a)) :
    (unison P f).Holds φ fun i => x i >>= k i := by
  intro s hAll
  cases hFirst : c.run s with
  | none =>
    refine ⟨none, nofun, fun i => ?_⟩
    rw [StateT.run_bind, hx i s, hFirst]
    rfl
  | some p =>
    obtain ⟨a, t⟩ := p
    obtain ⟨hAll', ha⟩ := hPromise s hAll a t hFirst
    obtain ⟨result, hKept, hRun⟩ := hRest a ha t hAll'
    refine ⟨result, hKept, fun i => ?_⟩
    rw [StateT.run_bind, hx i s, hFirst]
    exact hRun i

end Store

namespace Reader
variable {definitions : Definitions} {schema : Schema}

/-- Everything that readers keep in their stores while they go through the same schemas. -/
abbrev unison : Unison Reader (StateT (Store (Decoder Nat)) Option) := Store.unison Coherent fun r d => d r

theorem build_coherent (h : ∀ t ∈ schema.nodes, t.Unrefined) :
    (Store.building Coherent).Holds (schema.build (.family interpretation)) Coherent :=
  Schema.build_closedAt fun t ht => family_coherent (h t ht)

theorem followCheck_unison (h : ∀ t ∈ Schema.nodesNamed definitions, t.Unrefined) (bound handle : Nat) :
    unison.Checks value fun r =>
      (Resolver.ofDecoders (Store.resolve r.interpretation definitions)).followCheck bound handle := by
  have hDefinitions : ∀ e ∈ definitions,
      (Store.building Coherent).Holds (e.2.build (.family interpretation)) Coherent := by
    intro e he
    exact build_coherent fun t ht => h t (Schema.mem_nodesNamed he ht)
  induction bound generalizing handle with
  | zero => exact fun v s _ => ⟨none, nofun, fun r => rfl⟩
  | succ n ih =>
    intro v
    refine Store.unison_bind (Store.resolve_promise hDefinitions handle)
      (fun r => Store.resolve_carries (Interpretation.family_translates interpretation r) definitions handle) ?_
    intro d hd
    exact hd unison _ _ ih v

/-- There is one outline from which every reader has what it gives. -/
theorem fresh_outline (h : ∀ t ∈ schema.nodes ++ Schema.nodesNamed definitions, t.Unrefined) (bound : Nat)
    (v : Value) : ∃ outcome : Option (Decoded Outline), ∀ r : Reader,
      r.interpreter.fresh definitions bound schema v = outcome.map (Except.map (Outline.fill r.value)) := by
  obtain ⟨hSchema, hDefinitions⟩ := List.forall_mem_append.mp h
  have hAnswer : unison.Decodes value fun r => r.interpreter.answer definitions bound schema v := by
    refine Store.unison_bind (Store.build_promise (build_coherent hSchema))
      (fun r => Store.build_carries (Interpretation.family_translates interpretation r) schema) ?_
    intro d hd
    exact hd unison _ _ (followCheck_unison hDefinitions bound) v
  obtain ⟨result, _, hRun⟩ := hAnswer Store.empty Store.all_empty
  refine ⟨result.map Prod.fst, fun r => ?_⟩
  have hFresh : r.interpreter.fresh definitions bound schema v =
      ((r.interpreter.answer definitions bound schema v).run Store.empty).map Prod.fst := rfl
  have hEmpty : Store.empty.map (fun d : Reader → Decoder Nat => d r) = Store.empty := rfl
  rw [hFresh, ← hEmpty, hRun r]
  cases result <;> rfl

end Reader

end JsonShapes
