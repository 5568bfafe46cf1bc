import JsonShapes.Proofs.Lockstep
import JsonShapes.Resolver

/-! # Terms in lockstep

Guards, decoders and encoders that are written down directly have more constructors than schemas, but they are
run and their references are replaced by returning and sequencing alone. So what holds of two monads and of
references holds of every term.
-/
namespace JsonShapes
set_option autoImplicit false

variable {m n : Type → Type} [Monad m] [Monad n] (M : Lockstep m n) {ρ σ : Type}

namespace Lockstep

theorem mapFailures {of : Check m} {of' : Check n} (h : M.Pointwise of of')
    (f : Value → Failures String → Failures String) :
    M.Pointwise (Check.mapFailures of f) (Check.mapFailures of' f) :=
  fun v => M.bind (h v) fun _ => M.pure _

theorem andThen {of : Check m} {of' : Check n} (h : M.Pointwise of of') (next : Value → Value → Decoded Value) :
    M.Pointwise (Check.andThen of next) (Check.andThen of' next) := by
  intro v
  apply M.bind (h v)
  intro r
  cases r <;> exact M.pure _

theorem composeCheck {of next : Check m} {of' next' : Check n} (h : M.Pointwise of of')
    (hNext : M.Pointwise next next') : M.Pointwise (Check.compose of next) (Check.compose of' next') := by
  intro v
  apply M.bind (h v)
  intro r
  cases r with
  | ok w => exact hNext w
  | error e => exact M.pure _

theorem alt {of that : Check m} {of' that' : Check n} (h : M.Pointwise of of')
    (hThat : M.Pointwise that that') : M.Pointwise (Check.alt of that) (Check.alt of' that') := by
  intro v
  apply M.bind (h v)
  intro r
  cases r with
  | ok w => exact M.pure _
  | error e => exact M.bind (hThat v) fun _ => M.pure _

theorem guarded {test : Test m} {test' : Test n} (h : M.Pointwise test test') (expected : String) :
    M.Pointwise (Check.guarded test expected) (Check.guarded test' expected) := by
  intro v
  apply M.bind (h v)
  intro b
  cases b <;> exact M.pure _

theorem lazyCheck {of : Check m} {of' : Check n} (id : String) (h : M.Pointwise of of') :
    M.Pointwise (Check.lazy id of) (Check.lazy id of') :=
  fun v => M.bind (h v) fun _ => M.pure _

theorem compose {first next : Transform m} {first' next' : Transform n} (h : M.Pointwise first first')
    (hNext : M.Pointwise next next') :
    M.Pointwise (Transform.compose first next) (Transform.compose first' next') :=
  fun v => M.bind (h v) fun w => hNext w

end Lockstep

/-! ## Running -/

namespace Guard
variable {follow : ρ → Test m} {follow' : ρ → Test n}

mutual

theorem run_lockstep (h : ∀ ref, M.Pointwise (follow ref) (follow' ref)) (g : Guard ρ) :
    M.Pointwise (g.run follow) (g.run follow') := by
  have hTests := Lockstep.testing M follow follow'
  cases g with
  | any => exact fun v => M.pure _
  | kind k => exact hTests.kind k
  | literal values => exact hTests.literal values
  | refine of holds => exact hTests.refine holds "" (run_lockstep h of)
  | nullable or => exact hTests.nullable (run_lockstep h or)
  | object props => exact hTests.object (runNamed_lockstep h props)
  | partialObject props => exact hTests.partialObject (runNamed_lockstep h props)
  | record of => exact hTests.record (run_lockstep h of)
  | array of => exact hTests.array (run_lockstep h of)
  | tuple slots => exact hTests.tuple (runEach_lockstep h slots)
  | union members => exact hTests.union (runEach_lockstep h members)
  | inter left right => exact hTests.inter (run_lockstep h left) (run_lockstep h right)
  | tagged tag members => exact hTests.tagged tag (runNamed_lockstep h members)
  | lazy ref => exact h ref

theorem runEach_lockstep (h : ∀ ref, M.Pointwise (follow ref) (follow' ref)) (gs : List (Guard ρ)) :
    List.Forall₂ M.Pointwise (runEach follow gs) (runEach follow' gs) := by
  cases gs with
  | nil => exact .nil
  | cons g rest => exact .cons (run_lockstep h g) (runEach_lockstep h rest)

theorem runNamed_lockstep (h : ∀ ref, M.Pointwise (follow ref) (follow' ref)) (gs : List (String × Guard ρ)) :
    Entries.Related M.Pointwise (runNamed follow gs) (runNamed follow' gs) := by
  cases gs with
  | nil => exact .nil
  | cons e rest => exact .cons ⟨rfl, run_lockstep h e.2⟩ (runNamed_lockstep h rest)

end

end Guard

namespace Decoder
variable {test : ρ → Test m} {test' : ρ → Test n} {follow : ρ → Check m} {follow' : ρ → Check n}

mutual

theorem run_lockstep (hTest : ∀ ref, M.Pointwise (test ref) (test' ref))
    (h : ∀ ref, M.Pointwise (follow ref) (follow' ref)) (d : Decoder ρ) :
    M.Pointwise (d.run test follow) (d.run test' follow') := by
  have hChecks := Lockstep.checking M follow follow'
  cases d with
  | any => exact fun v => M.pure _
  | kind k => exact hChecks.kind k
  | float => exact fun v => M.pure _
  | literal values => exact hChecks.literal values
  | guarded guard expected => exact M.guarded (guard.run_lockstep M hTest) expected
  | andThen of next => exact M.andThen (run_lockstep hTest h of) next
  | compose of next => exact M.composeCheck (run_lockstep hTest h of) (run_lockstep hTest h next)
  | alt of that => exact M.alt (run_lockstep hTest h of) (run_lockstep hTest h that)
  | mapFailures of f => exact M.mapFailures (run_lockstep hTest h of) f
  | nullable or => exact hChecks.nullable (run_lockstep hTest h or)
  | object props => exact hChecks.object (runNamed_lockstep hTest h props)
  | partialObject props => exact hChecks.partialObject (runNamed_lockstep hTest h props)
  | record of => exact hChecks.record (run_lockstep hTest h of)
  | array of => exact hChecks.array (run_lockstep hTest h of)
  | tuple slots => exact hChecks.tuple (runEach_lockstep hTest h slots)
  | union members => exact hChecks.union (runEach_lockstep hTest h members)
  | inter left right => exact hChecks.inter (run_lockstep hTest h left) (run_lockstep hTest h right)
  | tagged tag members => exact hChecks.tagged tag (runNamed_lockstep hTest h members)
  | lazy id ref => exact M.lazyCheck id (h ref)

theorem runEach_lockstep (hTest : ∀ ref, M.Pointwise (test ref) (test' ref))
    (h : ∀ ref, M.Pointwise (follow ref) (follow' ref)) (ds : List (Decoder ρ)) :
    List.Forall₂ M.Pointwise (runEach test follow ds) (runEach test' follow' ds) := by
  cases ds with
  | nil => exact .nil
  | cons d rest => exact .cons (run_lockstep hTest h d) (runEach_lockstep hTest h rest)

theorem runNamed_lockstep (hTest : ∀ ref, M.Pointwise (test ref) (test' ref))
    (h : ∀ ref, M.Pointwise (follow ref) (follow' ref)) (ds : List (String × Decoder ρ)) :
    Entries.Related M.Pointwise (runNamed test follow ds) (runNamed test' follow' ds) := by
  cases ds with
  | nil => exact .nil
  | cons e rest => exact .cons ⟨rfl, run_lockstep hTest h e.2⟩ (runNamed_lockstep hTest h rest)

end

end Decoder

namespace Encoder
variable {follow : ρ → Transform m} {follow' : ρ → Transform n}

mutual

theorem run_lockstep (h : ∀ ref, M.Pointwise (follow ref) (follow' ref)) (e : Encoder ρ) :
    M.Pointwise (e.run follow) (e.run follow') := by
  have hTransforms := Lockstep.transforming M follow follow'
  cases e with
  | convert f => exact fun v => M.pure _
  | compose first next => exact M.compose (run_lockstep h first) (run_lockstep h next)
  | after last first => exact M.compose (run_lockstep h first) (run_lockstep h last)
  | nullable or => exact hTransforms.nullable (run_lockstep h or)
  | object props => exact hTransforms.object (runNamed_lockstep h props)
  | partialObject props => exact hTransforms.partialObject (runNamed_lockstep h props)
  | record of => exact hTransforms.record (run_lockstep h of)
  | array of => exact hTransforms.array (run_lockstep h of)
  | tuple slots => exact hTransforms.tuple (runEach_lockstep h slots)
  | inter left right => exact hTransforms.inter (run_lockstep h left) (run_lockstep h right)
  | tagged tag members => exact hTransforms.tagged tag (runNamed_lockstep h members)
  | lazy ref => exact h ref

theorem runEach_lockstep (h : ∀ ref, M.Pointwise (follow ref) (follow' ref)) (es : List (Encoder ρ)) :
    List.Forall₂ M.Pointwise (runEach follow es) (runEach follow' es) := by
  cases es with
  | nil => exact .nil
  | cons e rest => exact .cons (run_lockstep h e) (runEach_lockstep h rest)

theorem runNamed_lockstep (h : ∀ ref, M.Pointwise (follow ref) (follow' ref)) (es : List (String × Encoder ρ)) :
    Entries.Related M.Pointwise (runNamed follow es) (runNamed follow' es) := by
  cases es with
  | nil => exact .nil
  | cons e rest => exact .cons ⟨rfl, run_lockstep h e.2⟩ (runNamed_lockstep h rest)

end

end Encoder

/-! ## Following references -/

/-- What one resolver finds, the other one finds. -/
structure Resolver.InLockstep [MonadExceptOf Unit m] [MonadExceptOf Unit n] (M : Lockstep m n)
    (r : Resolver m ρ) (q : Resolver n ρ) : Prop where
  stop : ∀ {α : Type}, M.Rel (throw () : m α) (throw () : n α)
  guard : ∀ ref, M.Rel (r.guard ref) (q.guard ref)
  decoder : ∀ ref, M.Rel (r.decoder ref) (q.decoder ref)
  encoder : ∀ ref, M.Rel (r.encoder ref) (q.encoder ref)

namespace Resolver.InLockstep
variable [MonadExceptOf Unit m] [MonadExceptOf Unit n] {M} {r : Resolver m ρ} {q : Resolver n ρ}

theorem followTest (h : InLockstep M r q) (bound : Nat) (ref : ρ) :
    M.Pointwise (r.followTest bound ref) (q.followTest bound ref) := by
  induction bound generalizing ref with
  | zero => exact fun v => h.stop
  | succ k ih => exact fun v => M.bind (h.guard ref) fun g => g.run_lockstep M ih v

theorem followCheck (h : InLockstep M r q) (bound : Nat) (ref : ρ) :
    M.Pointwise (r.followCheck bound ref) (q.followCheck bound ref) := by
  induction bound generalizing ref with
  | zero => exact fun v => h.stop
  | succ k ih => exact fun v => M.bind (h.decoder ref) fun d => d.run_lockstep M (h.followTest k) ih v

theorem followTransform (h : InLockstep M r q) (bound : Nat) (ref : ρ) :
    M.Pointwise (r.followTransform bound ref) (q.followTransform bound ref) := by
  induction bound generalizing ref with
  | zero => exact fun v => h.stop
  | succ k ih => exact fun v => M.bind (h.encoder ref) fun e => e.run_lockstep M ih v

theorem test (h : InLockstep M r q) (bound : Nat) (g : Guard ρ) :
    M.Pointwise (r.test bound g) (q.test bound g) :=
  g.run_lockstep M (h.followTest bound)

theorem decode (h : InLockstep M r q) (bound : Nat) (d : Decoder ρ) :
    M.Pointwise (r.decode bound d) (q.decode bound d) :=
  d.run_lockstep M (h.followTest bound) (h.followCheck bound)

theorem encode (h : InLockstep M r q) (bound : Nat) (e : Encoder ρ) :
    M.Pointwise (r.encode bound e) (q.encode bound e) :=
  e.run_lockstep M (h.followTransform bound)

end Resolver.InLockstep

/-! ## Replacing references -/

namespace Guard
variable {f : ρ → m σ} {g : ρ → n σ}

mutual

theorem mapRefs_lockstep (h : ∀ ref, M.Rel (f ref) (g ref)) (guard : Guard ρ) :
    M.Rel (guard.mapRefs f) (guard.mapRefs g) := by
  cases guard with
  | any | kind _ | literal _ => exact M.pure _
  | refine of _ | nullable of | record of | array of =>
    exact M.bind (mapRefs_lockstep h of) fun _ => M.pure _
  | object props | partialObject props | tagged _ props =>
    exact M.bind (mapNamed_lockstep h props) fun _ => M.pure _
  | tuple items | union items => exact M.bind (mapEach_lockstep h items) fun _ => M.pure _
  | inter left right =>
    exact M.bind (mapRefs_lockstep h left) fun _ => M.bind (mapRefs_lockstep h right) fun _ => M.pure _
  | lazy ref => exact M.bind (h ref) fun _ => M.pure _

theorem mapEach_lockstep (h : ∀ ref, M.Rel (f ref) (g ref)) (gs : List (Guard ρ)) :
    M.Rel (mapEach f gs) (mapEach g gs) := by
  cases gs with
  | nil => exact M.pure _
  | cons guard rest =>
    exact M.bind (mapRefs_lockstep h guard) fun _ => M.bind (mapEach_lockstep h rest) fun _ => M.pure _

theorem mapNamed_lockstep (h : ∀ ref, M.Rel (f ref) (g ref)) (gs : List (String × Guard ρ)) :
    M.Rel (mapNamed f gs) (mapNamed g gs) := by
  cases gs with
  | nil => exact M.pure _
  | cons e rest =>
    exact M.bind (mapRefs_lockstep h e.2) fun _ => M.bind (mapNamed_lockstep h rest) fun _ => M.pure _

end

end Guard

namespace Decoder
variable {f : ρ → m σ} {g : ρ → n σ}

mutual

theorem mapRefs_lockstep (h : ∀ ref, M.Rel (f ref) (g ref)) (d : Decoder ρ) :
    M.Rel (d.mapRefs f) (d.mapRefs g) := by
  cases d with
  | any | kind _ | float | literal _ => exact M.pure _
  | guarded guard _ => exact M.bind (guard.mapRefs_lockstep M h) fun _ => M.pure _
  | andThen of _ | mapFailures of _ | nullable of | record of | array of =>
    exact M.bind (mapRefs_lockstep h of) fun _ => M.pure _
  | object props | partialObject props | tagged _ props =>
    exact M.bind (mapNamed_lockstep h props) fun _ => M.pure _
  | tuple items | union items => exact M.bind (mapEach_lockstep h items) fun _ => M.pure _
  | compose left right | alt left right | inter left right =>
    exact M.bind (mapRefs_lockstep h left) fun _ => M.bind (mapRefs_lockstep h right) fun _ => M.pure _
  | lazy _ ref => exact M.bind (h ref) fun _ => M.pure _

theorem mapEach_lockstep (h : ∀ ref, M.Rel (f ref) (g ref)) (ds : List (Decoder ρ)) :
    M.Rel (mapEach f ds) (mapEach g ds) := by
  cases ds with
  | nil => exact M.pure _
  | cons d rest =>
    exact M.bind (mapRefs_lockstep h d) fun _ => M.bind (mapEach_lockstep h rest) fun _ => M.pure _

theorem mapNamed_lockstep (h : ∀ ref, M.Rel (f ref) (g ref)) (ds : List (String × Decoder ρ)) :
    M.Rel (mapNamed f ds) (mapNamed g ds) := by
  cases ds with
  | nil => exact M.pure _
  | cons e rest =>
    exact M.bind (mapRefs_lockstep h e.2) fun _ => M.bind (mapNamed_lockstep h rest) fun _ => M.pure _

end

end Decoder

namespace Encoder
variable {f : ρ → m σ} {g : ρ → n σ}

mutual

theorem mapRefs_lockstep (h : ∀ ref, M.Rel (f ref) (g ref)) (e : Encoder ρ) :
    M.Rel (e.mapRefs f) (e.mapRefs g) := by
  cases e with
  | convert _ => exact M.pure _
  | nullable of | record of | array of => exact M.bind (mapRefs_lockstep h of) fun _ => M.pure _
  | object props | partialObject props | tagged _ props =>
    exact M.bind (mapNamed_lockstep h props) fun _ => M.pure _
  | tuple items => exact M.bind (mapEach_lockstep h items) fun _ => M.pure _
  | compose left right | after left right | inter left right =>
    exact M.bind (mapRefs_lockstep h left) fun _ => M.bind (mapRefs_lockstep h right) fun _ => M.pure _
  | lazy ref => exact M.bind (h ref) fun _ => M.pure _

theorem mapEach_lockstep (h : ∀ ref, M.Rel (f ref) (g ref)) (es : List (Encoder ρ)) :
    M.Rel (mapEach f es) (mapEach g es) := by
  cases es with
  | nil => exact M.pure _
  | cons e rest =>
    exact M.bind (mapRefs_lockstep h e) fun _ => M.bind (mapEach_lockstep h rest) fun _ => M.pure _

theorem mapNamed_lockstep (h : ∀ ref, M.Rel (f ref) (g ref)) (es : List (String × Encoder ρ)) :
    M.Rel (mapNamed f es) (mapNamed g es) := by
  cases es with
  | nil => exact M.pure _
  | cons e rest =>
    exact M.bind (mapRefs_lockstep h e.2) fun _ => M.bind (mapNamed_lockstep h rest) fun _ => M.pure _

end

end Encoder

theorem Codec.mapRefs_lockstep {f : ρ → m σ} {g : ρ → n σ} (h : ∀ ref, M.Rel (f ref) (g ref)) (c : Codec ρ) :
    M.Rel (c.mapRefs f) (c.mapRefs g) :=
  M.bind (c.decoder.mapRefs_lockstep M h) fun _ => M.bind (c.encoder.mapRefs_lockstep M h) fun _ => M.pure _

/-! ## Running with other references -/

namespace Guard
variable (f : ρ → σ)

/-- The same guard with other references. -/
def relink (g : Guard ρ) : Guard σ := g.mapRefs (m := Id) f

variable {follow : σ → Test m}

mutual

theorem run_relink (g : Guard ρ) : (g.relink f).run follow = g.run fun ref => follow (f ref) := by
  cases g with
  | any | kind _ | literal _ | lazy _ => rfl
  | refine of holds => exact congrArg (Test.refine · holds) (run_relink of)
  | nullable or => exact congrArg Test.nullable (run_relink or)
  | object props => exact congrArg Test.object (runNamed_relink props)
  | partialObject props => exact congrArg Test.partialObject (runNamed_relink props)
  | record of => exact congrArg Test.record (run_relink of)
  | array of => exact congrArg Test.array (run_relink of)
  | tuple slots => exact congrArg Test.tuple (runEach_relink slots)
  | union members => exact congrArg Test.union (runEach_relink members)
  | inter left right => exact congrArg₂ Test.inter (run_relink left) (run_relink right)
  | tagged tag members => exact congrArg (Test.tagged tag) (runNamed_relink members)

theorem runEach_relink (gs : List (Guard ρ)) :
    runEach follow (mapEach (m := Id) f gs) = runEach (fun ref => follow (f ref)) gs := by
  cases gs with
  | nil => rfl
  | cons g rest => exact congrArg₂ List.cons (run_relink g) (runEach_relink rest)

theorem runNamed_relink (gs : List (String × Guard ρ)) :
    runNamed follow (mapNamed (m := Id) f gs) = runNamed (fun ref => follow (f ref)) gs := by
  cases gs with
  | nil => rfl
  | cons e rest =>
    exact congrArg₂ (fun test tests => (e.1, test) :: tests) (run_relink e.2) (runNamed_relink rest)

end

end Guard

namespace Decoder
variable (f : ρ → σ)

/-- The same decoder with other references. -/
def relink (d : Decoder ρ) : Decoder σ := d.mapRefs (m := Id) f

theorem mapEach_relink (ds : List (Decoder ρ)) : mapEach (m := Id) f ds = ds.map (relink f) := by
  induction ds with
  | nil => rfl
  | cons d rest ih => exact congrArg (d.relink f :: ·) ih

theorem mapNamed_relink (ds : Entries (Decoder ρ)) :
    mapNamed (m := Id) f ds = Entries.mapValues (relink f) ds := by
  induction ds with
  | nil => rfl
  | cons e rest ih => exact congrArg ((e.1, e.2.relink f) :: ·) ih

variable {test : σ → Test m} {follow : σ → Check m}

mutual

theorem run_relink (d : Decoder ρ) :
    (d.relink f).run test follow = d.run (fun ref => test (f ref)) fun ref => follow (f ref) := by
  cases d with
  | any | kind _ | float | literal _ | lazy _ _ => rfl
  | guarded guard expected => exact congrArg (Check.guarded · expected) (guard.run_relink f)
  | andThen of next => exact congrArg (Check.andThen · next) (run_relink of)
  | compose of next => exact congrArg₂ Check.compose (run_relink of) (run_relink next)
  | alt of that => exact congrArg₂ Check.alt (run_relink of) (run_relink that)
  | mapFailures of g => exact congrArg (Check.mapFailures · g) (run_relink of)
  | nullable or => exact congrArg Check.nullable (run_relink or)
  | object props => exact congrArg Check.object (runNamed_relink props)
  | partialObject props => exact congrArg Check.partialObject (runNamed_relink props)
  | record of => exact congrArg Check.record (run_relink of)
  | array of => exact congrArg Check.array (run_relink of)
  | tuple slots => exact congrArg Check.tuple (runEach_relink slots)
  | union members => exact congrArg Check.union (runEach_relink members)
  | inter left right => exact congrArg₂ Check.inter (run_relink left) (run_relink right)
  | tagged tag members => exact congrArg (Check.tagged tag) (runNamed_relink members)

theorem runEach_relink (ds : List (Decoder ρ)) : runEach test follow (mapEach (m := Id) f ds) =
    runEach (fun ref => test (f ref)) (fun ref => follow (f ref)) ds := by
  cases ds with
  | nil => rfl
  | cons d rest => exact congrArg₂ List.cons (run_relink d) (runEach_relink rest)

theorem runNamed_relink (ds : List (String × Decoder ρ)) : runNamed test follow (mapNamed (m := Id) f ds) =
    runNamed (fun ref => test (f ref)) (fun ref => follow (f ref)) ds := by
  cases ds with
  | nil => rfl
  | cons e rest =>
    exact congrArg₂ (fun check checks => (e.1, check) :: checks) (run_relink e.2) (runNamed_relink rest)

end

end Decoder

/-- The same codec with other references. -/
def Codec.relink (f : ρ → σ) (c : Codec ρ) : Codec σ := c.mapRefs (m := Id) f

end JsonShapes
