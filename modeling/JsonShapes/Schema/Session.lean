import JsonShapes.Schema.Interpretation
import JsonShapes.Resolver

/-! # Sessions with interpreters

A session is a number of hosts that interpret schemas. A host made afresh has a store of its own, a
clone works in the store of the host it was cloned from. What has been built is put into a slot and
can be run whenever it is wanted, in the store where it was built.
-/
namespace JsonShapes
set_option autoImplicit false

/-- One of the ways to interpret schemas: its name, what schemas become, and how to run that. -/
structure Interpreter (ρ out : Type) where
  name : String
  interpretation : Interpretation Nat ρ
  run : (Nat → StateT (Store ρ) Option ρ) → Nat → ρ → Value → StateT (Store ρ) Option out

namespace Interpreter

def decoders : Interpreter (Decoder Nat) (Decoded Value) where
  name := "DecoderInterpreter"
  interpretation := .decoding
  run resolve := (Resolver.ofDecoders resolve).decode

def guards : Interpreter (Guard Nat) Bool where
  name := "GuardInterpreter"
  interpretation := .guarding
  run resolve := (Resolver.ofGuards resolve).test

def encoders : Interpreter (Encoder Nat) Value where
  name := "EncoderInterpreter"
  interpretation := .encoding
  run resolve := (Resolver.ofEncoders resolve).encode

end Interpreter

namespace Store
variable {ρ : Type}

/-- Reads a schema, which cannot fail. -/
def build (I : Interpretation Nat ρ) (schema : Schema) : StateT (Store ρ) Option ρ := fun s =>
  some ((schema.build I).run s)

/-- The representation behind a handle, read from its definition the first time. -/
def resolve (I : Interpretation Nat ρ) (definitions : Definitions) (handle : Nat) :
    StateT (Store ρ) Option ρ := do
  let found ← Registry.force registryPart (fun target =>
    match definitions.get? target with
    | some schema => build I schema
    | none => failure) handle
  match found with
  | some r => return r
  | none => failure

end Store

/-- What a schema was read as, and the store this was done in. -/
structure Slot (ρ : Type) where
  store : Nat
  shape : ρ

structure Session (ρ : Type) where
  stores : List (Store ρ)
  hosts : List Nat
  slots : List (Slot ρ)

inductive Command where
  | fresh
  | clone
  | build (schema : Schema)
  | run (slot : Nat) (input : Value)
  | describe

inductive Answer (out : Type) where
  | index (n : Nat)
  | outcome (o : out)
  | text (s : String)

namespace Session
variable {ρ out α : Type}

/-- One host with a store of its own. -/
def start : Session ρ := ⟨[.empty], [0], []⟩

def store? (s : Session ρ) (host : Nat) : Option (Store ρ) := do
  let i ← s.hosts[host]?
  s.stores[i]?

def inStore (i : Nat) (action : StateT (Store ρ) Option α) : StateT (Session ρ) Option α := fun s => do
  let store ← s.stores[i]?
  let (a, store) ← action store
  return (a, { s with stores := s.stores.set i store })

def addHost (i : Nat) : StateT (Session ρ) Option (Answer out) := modifyGet fun s =>
  (.index s.hosts.length, { s with hosts := s.hosts ++ [i] })

/-- Carries out a command that is given to a host, where running a slot may follow `bound` references. -/
def stepWithin (bound : Nat) (interpreter : Interpreter ρ out) (definitions : Definitions) (host : Nat)
    (command : Command) : StateT (Session ρ) Option (Answer out) := do
  let some i := (← get).hosts[host]? | failure
  match command with
  | .fresh =>
    let s ← get
    set { s with stores := s.stores ++ [Store.empty] }
    addHost s.stores.length
  | .clone => addHost i
  | .build schema =>
    let shape ← inStore i (Store.build interpreter.interpretation schema)
    modifyGet fun s => (.index s.slots.length, { s with slots := s.slots ++ [⟨i, shape⟩] })
  | .run slot input =>
    let some slot := (← get).slots[slot]? | failure
    let resolve := Store.resolve interpreter.interpretation definitions
    let run := interpreter.run resolve bound slot.shape input
    return .outcome (← inStore slot.store run)
  | .describe =>
    let some store := (← get).store? host | failure
    return .text (interpreter.name ++ " \x7b registry: " ++ store.registry.describe ++
      ", compiled: " ++ store.cache.describe ++ " \x7d")

def step (interpreter : Interpreter ρ out) (definitions : Definitions) (host : Nat) (command : Command) :
    StateT (Session ρ) Option (Answer out) :=
  stepWithin Resolver.limit interpreter definitions host command

end Session

end JsonShapes
