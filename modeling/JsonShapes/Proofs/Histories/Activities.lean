import JsonShapes.Proofs.Histories.Firsts
import JsonShapes.Proofs.Memoization.Running
import JsonShapes.Proofs.Shelving.Growth

/-! # What can be done with a registry

An activity clones a registry, defines and forces, one step after the other, and may go by the handles and the
values that it has been given. So may the thunks, which are activities as well and do their part while the
definition that they belong to is being resolved. All that is done is put on record.
-/
namespace JsonShapes
set_option autoImplicit false

inductive Activity (τ ρ α : Type) where
  | done (result : α)
  | clone (via : Nat) (next : Nat → Activity τ ρ α)
  | define (via : Nat) (id : String) (site : Nat) (thunk : τ) (next : Nat → Activity τ ρ α)
  | force (handle : Nat) (next : ρ → Activity τ ρ α)

/-- Something that has happened. A definition and a forcing come with the registry as it was before and after. -/
inductive Event (τ ρ : Type) where
  | defined (id : String) (site : Nat) (thunk : τ) (handle : Nat) (before after : Registry τ ρ)
  | begun (handle : Nat) (thunk : τ)
  | returned (handle : Nat) (value : ρ)
  | forced (handle : Nat) (value : ρ) (before after : Registry τ ρ)

/-- The registry with its clones, which share what it stores, the handles whose definitions are being
resolved, the innermost first, and all that has happened, the latest last. -/
structure Record (τ ρ : Type) where
  registry : Registry τ ρ
  clones : Nat
  opened : List Nat
  events : List (Event τ ρ)

namespace Record
variable {τ ρ α : Type}

/-- A registry without clones that nothing has been done with. -/
def start : Record τ ρ := ⟨.empty, 1, [], []⟩

def registryPart : Part (Record τ ρ) (Registry τ ρ) where
  get s := s.registry
  modify f s := { s with registry := f s.registry }

def define (id : String) (site : Nat) (thunk : τ) : StateT (Record τ ρ) Option Nat := modifyGet fun s =>
  let (handle, after) := s.registry.define id site thunk
  (handle, { s with
    registry := after
    events := s.events ++ [.defined id site thunk handle s.registry after] })

/-- Runs the thunk of a handle, whose definition is being resolved for as long. -/
def resolving (run : τ → StateT (Record τ ρ) Option ρ) (handle : Nat) (thunk : τ) :
    StateT (Record τ ρ) Option ρ := do
  modify fun s => { s with opened := handle :: s.opened, events := s.events ++ [.begun handle thunk] }
  let value ← run thunk
  modify fun s => { s with opened := s.opened.tail, events := s.events ++ [.returned handle value] }
  return value

/-- Forcing a definition that is being resolved has no result. -/
def force (run : τ → StateT (Record τ ρ) Option ρ) (handle : Nat) : StateT (Record τ ρ) Option ρ := do
  let s ← get
  if handle ∈ s.opened then failure
  match ← Registry.force registryPart (resolving run handle) handle with
  | some value =>
    modify fun s' => { s' with events := s'.events ++ [.forced handle value s.registry s'.registry] }
    return value
  | none => failure

end Record

namespace Activity
variable {τ ρ α : Type}

def perform (run : τ → StateT (Record τ ρ) Option ρ) : Activity τ ρ α → StateT (Record τ ρ) Option α
  | done result => return result
  | clone via next => do
    let s ← get
    if s.clones ≤ via then failure
    set { s with clones := s.clones + 1 }
    (next s.clones).perform run
  | define via id site thunk next => do
    if (← get).clones ≤ via then failure
    let handle ← Record.define id site thunk
    (next handle).perform run
  | force handle next => do
    let value ← Record.force run handle
    (next value).perform run

/-- Does what a thunk does, where at most `bound` definitions are being resolved one inside the other. -/
def resolve (bodies : τ → Activity τ ρ ρ) : Nat → τ → StateT (Record τ ρ) Option ρ
  | 0, _ => failure
  | bound + 1, thunk => (bodies thunk).perform (resolve bodies bound)

end Activity

/-! ## What the record says -/

namespace Event
variable {τ ρ : Type}

def definition? : Event τ ρ → Option ((String × Nat) × τ)
  | defined id site thunk _ _ _ => some ((id, site), thunk)
  | _ => none

def begun? : Event τ ρ → Option Nat
  | begun handle _ => some handle
  | _ => none

def after? : Event τ ρ → Option (Registry τ ρ)
  | defined _ _ _ _ _ after | forced _ _ _ after => some after
  | _ => none

end Event

namespace Registry
variable {τ ρ : Type}

def entries (r : Registry τ ρ) : List ((String × Nat) × τ) :=
  r.definitions.map fun d => ((d.id, d.site), d.thunk)

/-- Nothing has been removed, replaced or reordered, nor has a value that was kept been given up. -/
structure Continues (r r' : Registry τ ρ) : Prop where
  entries : r.entries <+: r'.entries
  runs : r.runs <+: r'.runs
  kept : ∀ {handle v}, r.settled? handle = some v → r'.settled? handle = some v

/-- The registry is as it has to be after the events. -/
structure Describes (r : Registry τ ρ) (events : List (Event τ ρ)) : Prop where
  entries : r.entries = firsts (events.filterMap Event.definition?)
  unique : r.places.Nodup
  length : r.length = ((events.filterMap Event.definition?).map (·.1)).toFinset.card
  ids_increase : r.ids.Pairwise (· < ·)
  mem_ids : ∀ id, id ∈ r.ids ↔ ∃ site thunk, ((id, site), thunk) ∈ events.filterMap Event.definition?
  get : ∀ id, r.get? id = (r.handles id).head?
  handles_increase : ∀ id, (r.handles id).Pairwise (· < ·)
  mem_handles : ∀ id handle, handle ∈ r.handles id ↔ ∃ site, r.places[handle]? = some (id, site)
  runs : r.runs = events.filterMap Event.begun?
  once : r.runs.Nodup
  kept : ∀ handle v, r.settled? handle = some v ↔ .returned handle v ∈ events

end Registry

namespace Event
variable {τ ρ : Type}

/-- What may happen after the events of the past. -/
def Lawful (past : List (Event τ ρ)) : Event τ ρ → Prop
  | defined id site thunk handle before after =>
    after.places[handle]? = some (id, site) ∧
      after.Describes (past ++ [defined id site thunk handle before after]) ∧
      before.Continues after ∧ after.runs = before.runs ∧
      ∀ thunk' handle' before' after', defined id site thunk' handle' before' after' ∈ past →
        handle = handle' ∧ after = before
  | begun handle thunk =>
    (∀ thunk', begun handle thunk' ∉ past) ∧
      ∃ place, (firsts (past.filterMap definition?))[handle]? = some (place, thunk)
  | returned handle _ =>
    (∃ thunk, begun handle thunk ∈ past) ∧ ∀ value, returned handle value ∉ past
  | forced handle value before after =>
    returned handle value ∈ past ∧ after.Describes past ∧ before.Continues after

end Event

/-- Everything on record has happened as it may, and the registry has only ever grown. -/
structure Record.Lawful {τ ρ : Type} (s : Record τ ρ) : Prop where
  events : ∀ past event later, s.events = past ++ event :: later → event.Lawful past
  grown : (s.events.filterMap Event.after?).Pairwise Registry.Continues
  registry : s.registry.Describes s.events
  last : ∀ r ∈ s.events.filterMap Event.after?, r.Continues s.registry

end JsonShapes
