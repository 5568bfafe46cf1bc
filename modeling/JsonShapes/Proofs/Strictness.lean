import JsonShapes.Proofs.Agreement
import JsonShapes.Proofs.Closed
import JsonShapes.Proofs.Memoization.Translation
import JsonShapes.Proofs.Reencoding

/-! # Encoding what is accepted

A check that fails may as well have no result, as long as it is asked only what it gives where it succeeds.
Read in this way a check is a transform that is defined on fewer values: it strips, fills, merges and selects
exactly as the transform does that comes from the same schema. Alternatives are the exception, since a union
goes on after a failure, and so are tuples, in which a transform leaves out what a check fills with null.
-/
namespace JsonShapes
set_option autoImplicit false

section
variable {σ τ α β ε : Type}

theorem bind_failure (x : StateT σ Option α) : (x >>= fun _ => (failure : StateT σ Option β)) = failure := by
  funext s
  change (x s).bind (fun _ => none) = none
  cases x s <;> rfl

/-! ## Results that have to be there -/

namespace Checked

def require (r : Checked ε α) : StateT σ Option α :=
  match r with
  | .ok a => pure a
  | .error _ => failure

theorem require_map (f : α → β) (r : Checked ε α) :
    (require (r.map f) : StateT σ Option β) = do return f (← require r) := by
  cases r <;> rfl

theorem require_mapFailures (f : Accum ε → Accum ε) (r : Checked ε α) :
    (require (mapFailures f r) : StateT σ Option α) = require r := by
  cases r <;> rfl

theorem require_both (l : Checked ε α) (r : Checked ε β) : (require (both l r) : StateT σ Option (α × β)) = do
    let a ← require l
    let b ← require r
    return (a, b) := by
  cases l <;> cases r <;> rfl

theorem require_collect_cons (r : Checked ε α) (rs : List (Checked ε α)) :
    (require (collect (r :: rs)) : StateT σ Option (List α)) = do
      let a ← require r
      let as ← require (collect rs)
      return a :: as := by
  cases r with
  | error e => rfl
  | ok a =>
    unfold collect
    rw [List.filterMap_cons, List.filterMap_cons]
    cases rs.filterMap failures? <;> rfl

/-- All are run whatever fails, but where one fails the others are run for nothing. -/
theorem require_collect_mapM (f : τ → StateT σ Option (Checked ε α)) (xs : List τ) :
    (xs.mapM f >>= fun rs => require (collect rs)) = xs.mapM fun x => f x >>= require := by
  induction xs with
  | nil => rfl
  | cons x rest ih =>
    rw [List.mapM_cons, List.mapM_cons, ← ih]
    simp only [bind_assoc, pure_bind, require_collect_cons]
    apply bind_congr
    intro r
    cases r with
    | error e => exact bind_failure _
    | ok a => rfl

theorem require_traverseIndexed (f : Nat → τ → StateT σ Option (Checked ε α)) (items : List τ) :
    (traverseIndexed items f >>= require) = items.zipIdx.mapM fun item => f item.2 item.1 >>= require := by
  rw [← require_collect_mapM, traverseIndexed, bind_assoc]
  rfl

theorem require_traverseKeyed (f : String → τ → StateT σ Option (Checked ε α)) (entries : List (String × τ)) :
    (traverseKeyed entries f >>= require) = do
      let fields ← entries.mapM fun e => do
        let a ← f e.1 e.2 >>= require
        return (e.1, a)
      return Entries.ofList fields := by
  have hCollected : (traverseKeyed entries f >>= require) = do
      let rs ← entries.mapM fun e => do
        let r ← f e.1 e.2
        return r.map fun a => (e.1, a)
      let fields ← require (collect rs)
      return Entries.ofList fields := by
    simp only [traverseKeyed, bind_assoc, pure_bind, require_map]
  rw [hCollected, ← bind_assoc, require_collect_mapM]
  simp only [bind_assoc, pure_bind, require_map]

end Checked

/-! ## Strict checks -/

namespace Check
open Checked

/-- The check without its failures. -/
def strict (c : Check (StateT σ Option)) : Transform (StateT σ Option) := fun v => c v >>= require

theorem strict_nullable (or : Check (StateT σ Option)) :
    strict (Check.nullable or) = Transform.nullable (strict or) := by
  funext v
  cases v with
  | null => rfl
  | _ =>
    simp only [strict, Check.nullable, Transform.nullable, bind_assoc]
    apply bind_congr
    intro r
    cases r <;> rfl

theorem strict_object (props : List (String × Check (StateT σ Option))) (entries : List (String × Value)) :
    strict (Check.object props) (.obj entries) =
      Transform.object (props.map fun p => (p.1, strict p.2)) (.obj entries) := by
  simp only [strict, Check.object, Transform.object, bind_assoc, pure_bind, require_map]
  rw [← bind_assoc, require_traverseKeyed]
  simp only [Decoded.within, require_mapFailures, strict, bind_assoc, pure_bind, List.mapM_map, Function.comp_def]
  rfl

theorem strict_partialObject (props : List (String × Check (StateT σ Option))) (entries : List (String × Value)) :
    strict (Check.partialObject props) (.obj entries) =
      Transform.partialObject (props.map fun p => (p.1, strict p.2)) (.obj entries) := by
  have hPresent : ((props.map fun p => (p.1, strict p.2)).filterMap fun p =>
      (Entries.get? entries p.1).map fun raw => (p.1, p.2, raw)) =
      (props.filterMap fun p => (Entries.get? entries p.1).map fun raw => (p.1, p.2, raw)).map
        fun slot => (slot.1, strict slot.2.1, slot.2.2) := by
    rw [List.filterMap_map, List.map_filterMap]
    simp only [Option.map_map]
    rfl
  simp only [strict, Check.partialObject, Transform.partialObject, Value.entries, bind_assoc, pure_bind, require_map]
  rw [← bind_assoc, require_traverseKeyed, hPresent, List.mapM_map]
  simp only [bind_assoc, pure_bind]
  congr 2
  funext slot
  obtain ⟨name, check, raw⟩ := slot
  cases raw with
  | null => rfl
  | _ => simp only [Decoded.within, Function.comp_apply, strict, bind_assoc, pure_bind, require_mapFailures]

theorem strict_record (of : Check (StateT σ Option)) (entries : List (String × Value)) :
    strict (Check.record of) (.obj entries) = Transform.record (strict of) (.obj entries) := by
  simp only [strict, Check.record, Transform.record, bind_assoc, pure_bind, require_map]
  rw [← bind_assoc, require_traverseKeyed]
  simp only [Decoded.within, require_mapFailures, bind_assoc, pure_bind]
  rfl

theorem strict_array (of : Check (StateT σ Option)) (items : List Value) :
    strict (Check.array of) (.arr items) = Transform.array (strict of) (.arr items) := by
  have hItems : items.mapM (strict of) = items.zipIdx.mapM fun item => of item.1 >>= require := by
    conv_lhs => rw [← List.zipIdx_map_fst 0 items, List.mapM_map]
    rfl
  simp only [strict, Check.array, Transform.array, Value.items, bind_assoc, pure_bind, require_map, hItems]
  rw [← bind_assoc, require_traverseIndexed]
  simp only [Decoded.within, require_mapFailures, bind_assoc, pure_bind]

theorem strict_inter (left right : Check (StateT σ Option)) :
    strict (Check.inter left right) = Transform.inter (strict left) (strict right) := by
  funext v
  simp only [strict, Check.inter, Transform.inter, bind_assoc, pure_bind, require_map, require_both]
  apply bind_congr
  intro l
  cases l with
  | error e => exact bind_failure _
  | ok a => rfl

theorem strict_lazy (id : String) (of : Check (StateT σ Option)) : strict (Check.lazy id of) = strict of := by
  funext v
  simp only [strict, Check.lazy, Decoded.within, bind_assoc, pure_bind, require_mapFailures]

end Check

end

/-! ## Transforms that go along -/

variable {σ τ : Type}

/-- Whatever is done on the other side, a run without a result is simulated by it. -/
structure Lockstep.Lenient (M : Lockstep (StateT σ Option) (StateT τ Option)) : Prop where
  rel : ∀ {α : Type} (y : StateT τ Option α), M.Rel failure y

/-- Where the check succeeds the transform has the same result. -/
def Check.Leads (M : Lockstep (StateT σ Option) (StateT τ Option)) (check : Check (StateT σ Option))
    (transform : Transform (StateT τ Option)) : Prop :=
  M.Pointwise check.strict transform

namespace Check.Leads
variable {M : Lockstep (StateT σ Option) (StateT τ Option)} (hM : M.Lenient)
variable {check left right : Check (StateT σ Option)} {transform leftOut rightOut : Transform (StateT τ Option)}
variable {checks : Entries (Check (StateT σ Option))} {transforms : Entries (Transform (StateT τ Option))}

theorem strict_related (h : Entries.Related (Leads M) checks transforms) :
    Entries.Related M.Pointwise (checks.map fun p => (p.1, strict p.2)) transforms := by
  rw [Entries.Related, List.forall₂_map_left_iff]
  exact h

theorem nullable (h : Leads M check transform) : Leads M (Check.nullable check) (Transform.nullable transform) := by
  rw [Leads, strict_nullable]
  exact (M.transforming (σ := Empty) nofun nofun).nullable h

theorem inter (h : Leads M left leftOut) (h' : Leads M right rightOut) :
    Leads M (Check.inter left right) (Transform.inter leftOut rightOut) := by
  rw [Leads, strict_inter]
  exact (M.transforming (σ := Empty) nofun nofun).inter h h'

theorem lazy (id : String) (h : Leads M check transform) : Leads M (Check.lazy id check) transform := by
  rw [Leads, strict_lazy]
  exact h

include hM

theorem kind (k : Kind) :
    Leads M (Check.guarded (Test.kind k) k.expected) (Transform.convert fun v => v) := by
  intro v
  rw [Check.guarded_kind, strict, Check.kind, pure_bind]
  split
  · exact M.pure v
  · exact hM.rel _

theorem literal (values : List Value) : Leads M (Check.literal values) (Transform.convert fun v => v) := by
  intro v
  rw [strict, Check.literal, pure_bind]
  split
  · exact M.pure v
  · exact hM.rel _

theorem object (h : Entries.Related (Leads M) checks transforms) :
    Leads M (Check.object checks) (Transform.object transforms) := by
  intro v
  cases v with
  | obj entries =>
    rw [strict_object]
    exact (M.transforming (σ := Empty) nofun nofun).object (strict_related h) _
  | _ => exact hM.rel _

theorem partialObject (h : Entries.Related (Leads M) checks transforms) :
    Leads M (Check.partialObject checks) (Transform.partialObject transforms) := by
  intro v
  cases v with
  | obj entries =>
    rw [strict_partialObject]
    exact (M.transforming (σ := Empty) nofun nofun).partialObject (strict_related h) _
  | _ => exact hM.rel _

theorem record (h : Leads M check transform) : Leads M (Check.record check) (Transform.record transform) := by
  intro v
  cases v with
  | obj entries =>
    rw [strict_record]
    exact (M.transforming (σ := Empty) nofun nofun).record h _
  | _ => exact hM.rel _

theorem array (h : Leads M check transform) : Leads M (Check.array check) (Transform.array transform) := by
  intro v
  cases v with
  | arr items =>
    rw [strict_array]
    exact (M.transforming (σ := Empty) nofun nofun).array h _
  | _ => exact hM.rel _

/-- A check goes on only with a member that the tag names, a transform leaves other objects as they are. -/
theorem tagged (tag : String) (h : Entries.Related (Leads M) checks transforms) :
    Leads M (Check.tagged tag checks) (Transform.tagged tag transforms) := by
  intro v
  cases v with
  | obj entries =>
    simp only [strict, Check.tagged, Transform.tagged, Value.get?, Value.string?_getD_null]
    rcases h.ofList.selected ((Entries.get? entries tag).bind Value.string?) with
      ⟨hLeft, hRight⟩ | ⟨check, transform, hLeft, hRight, hMember⟩
    · rw [hLeft, hRight]
      exact hM.rel _
    · rw [hLeft, hRight]
      exact hMember _
  | _ => exact hM.rel _

theorem refine (h : Leads M check transform) (holds : Value → Bool) (expected : String) :
    Leads M (Check.andThen check fun v w => if holds v then .ok w else Decoded.reject w expected) transform := by
  intro v
  cases hHolds : holds v with
  | true =>
    have hSame : strict (Check.andThen check fun v w => if holds v then .ok w else Decoded.reject w expected) v =
        strict check v := by
      simp only [strict, Check.andThen, hHolds, bind_assoc]
      apply bind_congr
      intro r
      cases r <;> rfl
    rw [hSame]
    exact h v
  | false =>
    have hNone : strict (Check.andThen check fun v w => if holds v then .ok w else Decoded.reject w expected) v =
        failure := by
      rw [← bind_failure (check v)]
      simp only [strict, Check.andThen, hHolds, bind_assoc]
      apply bind_congr
      intro r
      cases r <;> rfl
    rw [hNone]
    exact hM.rel _

end Check.Leads

/-! ## Decoders and encoders of one schema -/

/-- What a decoder and an encoder make of a schema. -/
abbrev Interpretation.coding : Interpretation Nat (Decoder Nat × Encoder Nat) := .pair .decoding .encoding

/-- Wherever references lead, if the check behind them leads the transform behind them, then so does the decoder
the encoder. -/
def Leading (shapes : Decoder Nat × Encoder Nat) : Prop :=
  ∀ {σ τ : Type} (M : Lockstep (StateT σ Option) (StateT τ Option)), M.Lenient →
    ∀ test follow follow', (∀ handle, Check.Leads M (follow handle) (follow' handle)) →
      Check.Leads M (shapes.1.run test follow) (shapes.2.run follow')

/-- Neither a union nor a tuple. -/
def Schema.Definite : Schema → Prop
  | union _ | tuple _ => False
  | _ => True

section
variable {M : Lockstep (StateT σ Option) (StateT τ Option)} {test : Nat → Test (StateT σ Option)}
variable {follow : Nat → Check (StateT σ Option)} {follow' : Nat → Transform (StateT τ Option)}

theorem runNamed_leading (hM : M.Lenient) (hFollow : ∀ handle, Check.Leads M (follow handle) (follow' handle))
    {as : Entries (Decoder Nat × Encoder Nat)} (h : ∀ p ∈ as, Leading p.2) :
    Entries.Related (Check.Leads M) (Decoder.runNamed test follow (as.map fun p => (p.1, p.2.1)))
      (Encoder.runNamed follow' (as.map fun p => (p.1, p.2.2))) := by
  induction as with
  | nil => exact .nil
  | cons p rest ih =>
    obtain ⟨hHead, hRest⟩ := List.forall_mem_cons.mp h
    exact .cons ⟨rfl, hHead M hM test follow follow' hFollow⟩ (ih hRest)

end

theorem Interpretation.coding_leading {s : Schema} (h : s.Definite) : coding.ClosedAt Leading s := by
  cases s with
  | kind k =>
    intro σ τ M hM test follow follow' hFollow
    exact Check.Leads.kind hM k
  | literal values =>
    intro σ τ M hM test follow follow' hFollow
    exact Check.Leads.literal hM values
  | nullable or =>
    intro a ha σ τ M hM test follow follow' hFollow
    exact (ha M hM test follow follow' hFollow).nullable
  | object props =>
    intro as _ has σ τ M hM test follow follow' hFollow
    exact Check.Leads.object hM (runNamed_leading hM hFollow has)
  | partialObject props =>
    intro as _ has σ τ M hM test follow follow' hFollow
    exact Check.Leads.partialObject hM (runNamed_leading hM hFollow has)
  | record of =>
    intro a ha σ τ M hM test follow follow' hFollow
    exact Check.Leads.record hM (ha M hM test follow follow' hFollow)
  | array of =>
    intro a ha σ τ M hM test follow follow' hFollow
    exact Check.Leads.array hM (ha M hM test follow follow' hFollow)
  | tuple slots => cases h
  | union members => cases h
  | inter left right =>
    intro a b ha hb σ τ M hM test follow follow' hFollow
    exact (ha M hM test follow follow' hFollow).inter (hb M hM test follow follow' hFollow)
  | tagged tag members =>
    intro as _ has σ τ M hM test follow follow' hFollow
    exact Check.Leads.tagged hM tag (runNamed_leading hM hFollow has)
  | refine of holds expected =>
    intro a ha σ τ M hM test follow follow' hFollow
    exact Check.Leads.refine hM (ha M hM test follow follow' hFollow) holds expected
  | lazy link =>
    intro ref σ τ M hM test follow follow' hFollow
    exact (hFollow ref).lazy link.id
  | make key body => trivial

/-! ## Stores of both -/

namespace Store
variable {κ ρ π : Type} (P : κ → Prop) (f : κ → ρ) (g : κ → π)

/-- Between translations of one store, runs on the one side that end are simulated on the other. -/
def simulating : Lockstep (StateT (Store ρ) Option) (StateT (Store π) Option) where
  Rel x y := ∀ s : Store κ, s.All P → ∀ a s', x.run (s.map f) = some (a, s') →
    ∃ t : Store κ, t.All P ∧ s' = t.map f ∧ y.run (s.map g) = some (a, t.map g)
  pure a s hAll a' s' hRun := by
    cases hRun
    exact ⟨s, hAll, rfl, rfl⟩
  bind {α β x y h k} hxy hhk s hAll b s'' hRun := by
    obtain ⟨⟨a, s'⟩, hFirst, hRest⟩ := Option.bind_eq_some_iff.mp hRun
    obtain ⟨t, hAll', rfl, hFirst'⟩ := hxy s hAll a s' hFirst
    obtain ⟨u, hAll'', rfl, hRest'⟩ := hhk a t hAll' b s'' hRest
    refine ⟨u, hAll'', rfl, ?_⟩
    rw [StateT.run_bind, hFirst']
    exact hRest'

theorem simulating_lenient : (simulating P f g).Lenient where
  rel y s _ a s' hRun := by cases hRun

variable {P f g}

/-- A step that gives both sides their translation of one result. -/
theorem simulating_bind {c : StateT (Store κ) Option κ} {x : StateT (Store ρ) Option ρ}
    {y : StateT (Store π) Option π} (hPromise : (running P).Holds c P) (hx : Carries (map f) f c x)
    (hy : Carries (map g) g c y) {α : Type} {h : ρ → StateT (Store ρ) Option α}
    {k : π → StateT (Store π) Option α} (hRest : ∀ a, P a → (simulating P f g).Rel (h (f a)) (k (g a))) :
    (simulating P f g).Rel (x >>= h) (y >>= k) := by
  intro s hAll b s' hRun
  rw [StateT.run_bind, hx s] at hRun
  rw [StateT.run_bind, hy s]
  cases hFirst : c.run s with
  | none =>
    rw [hFirst] at hRun
    cases hRun
  | some p =>
    obtain ⟨a, t⟩ := p
    obtain ⟨hAll', ha⟩ := hPromise s hAll a t hFirst
    rw [hFirst] at hRun
    exact hRest a ha t hAll' b s' hRun

end Store

namespace Interpreter
variable {definitions : Definitions} {schema : Schema}

theorem followCheck_leads (h : ∀ t ∈ Schema.nodesNamed definitions, t.Definite) {m n : Nat} (hBound : m ≤ n)
    (handle : Nat) : Check.Leads (Store.simulating Leading Prod.fst Prod.snd)
      ((Resolver.ofDecoders (Store.resolve .decoding definitions)).followCheck m handle)
      ((Resolver.ofEncoders (Store.resolve .encoding definitions)).followTransform n handle) := by
  have hDefinitions : ∀ e ∈ definitions, (Store.building Leading).Holds (e.2.build .coding) Leading := by
    intro e he
    apply Schema.build_closedAt
    exact fun t ht => Interpretation.coding_leading (h t (Schema.mem_nodesNamed he ht))
  have hLenient := Store.simulating_lenient Leading Prod.fst Prod.snd
  induction m generalizing n handle with
  | zero => exact fun v => hLenient.rel _
  | succ m ih =>
    obtain ⟨n, rfl⟩ := Nat.exists_eq_succ_of_ne_zero (Nat.ne_zero_of_lt hBound)
    intro v
    rw [Check.strict, Resolver.followCheck, Resolver.followTransform, bind_assoc]
    refine Store.simulating_bind (Store.resolve_promise hDefinitions handle)
      (Store.resolve_carries (Interpretation.pair_translates_fst _ _) definitions handle)
      (Store.resolve_carries (Interpretation.pair_translates_snd _ _) definitions handle) ?_
    intro shapes hShapes
    exact hShapes _ hLenient _ _ _ (ih (Nat.le_of_succ_le_succ hBound)) v

/-- On what its decoder accepts an encoder gives exactly what the decoder gives. -/
theorem encoder_gives_decoded (hDefinite : ∀ t ∈ schema.nodes ++ Schema.nodesNamed definitions, t.Definite)
    {m n : Nat} (hBound : m ≤ n) {v w : Value} (hDecoded : decoders.fresh definitions m schema v = some (.ok w)) :
    encoders.fresh definitions n schema v = some w := by
  obtain ⟨hSchema, hDefinitions⟩ := List.forall_mem_append.mp hDefinite
  have hBuild : (Store.running Leading).Holds (Store.build .coding schema) Leading :=
    Store.build_promise (Schema.build_closedAt fun t ht => Interpretation.coding_leading (hSchema t ht))
  have hAnswer : (Store.simulating Leading Prod.fst Prod.snd).Rel
      (decoders.answer definitions m schema v >>= Checked.require) (encoders.answer definitions n schema v) := by
    rw [answer, answer, bind_assoc]
    refine Store.simulating_bind hBuild (Store.build_carries (Interpretation.pair_translates_fst _ _) schema)
      (Store.build_carries (Interpretation.pair_translates_snd _ _) schema) ?_
    intro shapes hShapes
    exact hShapes _ (Store.simulating_lenient ..) _ _ _ (followCheck_leads hDefinitions hBound) v
  obtain ⟨⟨result, s⟩, hRun, hResult⟩ := Option.map_eq_some_iff.mp hDecoded
  cases hResult
  have hAccepted : (decoders.answer definitions m schema v >>= Checked.require).run Store.empty = some (w, s) := by
    rw [StateT.run_bind, StateT.run, hRun]
    rfl
  obtain ⟨t, _, _, hEncoded⟩ := hAnswer Store.empty Store.all_empty w s hAccepted
  exact congrArg (Option.map Prod.fst) hEncoded

end Interpreter

/-- Encoded as it was sent, a parcel comes out as it is unpacked. -/
theorem Parcels.sent_encoded :
    (∀ t ∈ schema.nodes ++ Schema.nodesNamed definitions, t.Definite) ∧
      Interpreter.decoders.fresh definitions 1 schema sent = some (.ok unpacked) ∧
      Interpreter.encoders.fresh definitions 2 schema sent = some unpacked := by
  have hDefinite : ∀ t ∈ schema.nodes ++ Schema.nodesNamed definitions, t.Definite := by
    simp [definitions, schema, box, bag, notes, Schema.nodes, Schema.nodesNamed, Schema.Definite]
  have hDecoded : Interpreter.decoders.fresh definitions 1 schema sent = some (.ok unpacked) := rfl
  exact ⟨hDefinite, hDecoded, Interpreter.encoder_gives_decoded hDefinite (by decide) hDecoded⟩

end JsonShapes
