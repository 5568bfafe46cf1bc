import JsonShapes.Proofs.Memoization.Running

/-! # Interpreters against the direct evaluation

Each interpreter answers from every sound store what the direct evaluation answers, be it that it gives
a result or that it needs more references than the bound allows.
-/
namespace JsonShapes.Interpreter
set_option autoImplicit false

variable {ρ out : Type}

/-- What was read from a schema runs in every later store as the schema is evaluated. -/
def Faithful (J : Interpreter ρ out) (evaluate : Definitions → Nat → Schema → Value → Option out) : Prop :=
  ∀ {definitions : Definitions} {A : Assignment}, definitions.Follow A →
    ∀ {schema : Schema}, schema.Follows A →
      ∀ {s₀ : Store ρ} {r : ρ}, s₀.Represents J.interpretation schema r → ∀ bound,
        (Store.lockstep J.interpretation definitions A s₀).Pointwise
          (J.run (Store.resolve J.interpretation definitions) bound r) (evaluate definitions bound schema)

section
variable {J : Interpreter ρ out} {evaluate : Definitions → Nat → Schema → Value → Option out}
variable {read : (Link → Value → Option out) → Interpretation Link (Value → Option out)}

/-- It suffices that running a shape goes in lockstep with its direct reading whenever following its
links does. -/
theorem faithful_of_lockstep
    (follow : (Nat → StateT (Store ρ) Option ρ) → Nat → Nat → Value → StateT (Store ρ) Option out)
    (hEvaluate : ∀ definitions bound schema,
      evaluate definitions bound schema = schema.unfold (read (definitions.follow read bound)))
    (hZero : ∀ resolve handle v, follow resolve 0 handle v = failure)
    (hSucc : ∀ resolve n handle v, follow resolve (n + 1) handle v =
      resolve handle >>= fun r => J.run resolve n r v)
    (hRun : ∀ (M : Lockstep (StateT (Store ρ) Option) Option) resolve n (place : Link → Nat)
      (links : Link → Value → Option out) (schema : Schema),
      (∀ link ∈ schema.links, M.Pointwise (follow resolve n (place link)) (links link)) →
        M.Pointwise (J.run resolve n (schema.unfold (J.interpretation.comap place)))
          (schema.unfold (read links))) :
    J.Faithful evaluate := by
  intro definitions A hDefinitions schema hSchema s₀ r hRead bound
  rw [← hRead.unfold_eq, hEvaluate]
  apply hRun
  intro link hLink
  exact Store.follow_lockstep hDefinitions (hZero _) (hSucc _)
    (fun n s₀ schema hLinks => hRun _ _ n s₀.place _ schema hLinks) bound s₀
    (hRead.knows link hLink) (hSchema.links link hLink)

end

theorem decoders_faithful : decoders.Faithful Schema.decode := by
  refine faithful_of_lockstep (fun resolve => (Resolver.ofDecoders resolve).followCheck)
    Schema.decode_eq (fun _ _ _ => rfl) (fun _ _ _ _ => rfl) ?_
  intro M resolve n place links schema hLinks
  change M.Pointwise ((Resolver.ofDecoders resolve).decode n _) _
  rw [Resolver.decode, decoders, Decoder.run_unfold]
  apply schema.unfold_related (Lockstep.checking M _ _)
  intro link hLink v
  exact M.bind (hLinks link hLink v) fun _ => M.pure _

theorem guards_faithful : guards.Faithful Schema.accepts := by
  refine faithful_of_lockstep (fun resolve => (Resolver.ofGuards resolve).followTest)
    Schema.accepts_eq (fun _ _ _ => rfl) (fun _ _ _ _ => rfl) ?_
  intro M resolve n place links schema hLinks
  change M.Pointwise ((Resolver.ofGuards resolve).test n _) _
  rw [Resolver.test, guards, Guard.run_unfold]
  exact schema.unfold_related (Lockstep.testing M _ _) hLinks

theorem encoders_faithful : encoders.Faithful Schema.encode := by
  refine faithful_of_lockstep (fun resolve => (Resolver.ofEncoders resolve).followTransform)
    Schema.encode_eq (fun _ _ _ => rfl) (fun _ _ _ _ => rfl) ?_
  intro M resolve n place links schema hLinks
  change M.Pointwise ((Resolver.ofEncoders resolve).encode n _) _
  rw [Resolver.encode, encoders, Encoder.run_unfold]
  exact schema.unfold_related (Lockstep.transforming M _ _) hLinks

def answer (J : Interpreter ρ out) (definitions : Definitions) (bound : Nat) (schema : Schema)
    (v : Value) : StateT (Store ρ) Option out := do
  let r ← Store.build J.interpretation schema
  J.run (Store.resolve J.interpretation definitions) bound r v

/-- The answer of an interpreter that has done nothing before. -/
def fresh (J : Interpreter ρ out) (definitions : Definitions) (bound : Nat) (schema : Schema)
    (v : Value) : Option out := (J.answer definitions bound schema v).run' Store.empty

variable {J : Interpreter ρ out} {evaluate : Definitions → Nat → Schema → Value → Option out}
variable {definitions : Definitions} {A : Assignment} {schema : Schema}

theorem fresh_eq (hJ : J.Faithful evaluate) (hDefinitions : definitions.Follow A)
    (hSchema : schema.Follows A) (bound : Nat) (v : Value) :
    J.fresh definitions bound schema v = evaluate definitions bound schema v := by
  obtain ⟨hSound, _, hRead⟩ := Store.build_keeps J.interpretation definitions schema hSchema
    Store.empty (Store.sound_empty definitions A) trivial
  exact (hJ hDefinitions hSchema hRead bound v _ hSound (Store.Extends.refl _)).result_eq

end JsonShapes.Interpreter

namespace JsonShapes

inductive Role where
  | decoding
  | guarding
  | encoding

namespace Role

def Shape : Role → Type
  | decoding => Decoder Nat
  | guarding => Guard Nat
  | encoding => Encoder Nat

def Outcome : Role → Type
  | decoding => Decoded Value
  | guarding => Bool
  | encoding => Value

def interpreter : (role : Role) → Interpreter role.Shape role.Outcome
  | decoding => Interpreter.decoders
  | guarding => Interpreter.guards
  | encoding => Interpreter.encoders

def evaluate : (role : Role) → Definitions → Nat → Schema → Value → Option role.Outcome
  | decoding => Schema.decode
  | guarding => Schema.accepts
  | encoding => Schema.encode

theorem faithful (role : Role) : role.interpreter.Faithful role.evaluate := by
  cases role with
  | decoding => exact Interpreter.decoders_faithful
  | guarding => exact Interpreter.guards_faithful
  | encoding => exact Interpreter.encoders_faithful

end Role

end JsonShapes
