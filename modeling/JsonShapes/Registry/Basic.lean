import JsonShapes.Text.Quoted

/-! # Registries of definitions

A registry owns the definitions behind recursive shapes. A definition belongs to an identifier and to
the place where it is made, its site: defining the same identifier again at the same site gives back
the definition that is already there, which is how a shape refers to itself. A definition is known
outside by its handle, its position in the registry, so registries only ever grow.

What a definition stands for is not built when it is made. Forcing it runs its thunk the first time
and keeps the result; the registry records in `runs` which thunks have run, the latest last.
-/
namespace JsonShapes
set_option autoImplicit false

structure Definition (τ ρ : Type) where
  id : String
  site : Nat
  thunk : τ
  value : Option ρ

def Definition.describe {τ ρ : Type} (d : Definition τ ρ) : String :=
  "Definition \x7b id: " ++ Text.descriptiveQuoted d.id ++ ", resolved: " ++
    (if d.value.isSome then "true" else "false") ++ " \x7d"

structure Registry (τ ρ : Type) where
  definitions : List (Definition τ ρ)
  runs : List Nat

/-- A part of a state that can be read and changed. -/
structure Part (σ α : Type) where
  get : σ → α
  modify : (α → α) → σ → σ

def Part.whole {σ : Type} : Part σ σ := ⟨fun s => s, fun f => f⟩

namespace Registry
variable {τ ρ : Type}

def empty : Registry τ ρ := ⟨[], []⟩

def matching (id : String) (site : Nat) (d : Definition τ ρ) : Bool := d.id == id && d.site == site

/-- The handle for the identifier and site, which are defined first if they are new. -/
def define (id : String) (site : Nat) (thunk : τ) (r : Registry τ ρ) : Nat × Registry τ ρ :=
  match r.definitions.findIdx? (matching id site) with
  | some handle => (handle, r)
  | none =>
    (r.definitions.length, { r with definitions := r.definitions ++ [⟨id, site, thunk, none⟩] })

def definition? (r : Registry τ ρ) (handle : Nat) : Option (Definition τ ρ) :=
  r.definitions[handle]?

def beginRun (handle : Nat) (r : Registry τ ρ) : Registry τ ρ :=
  { r with runs := r.runs ++ [handle] }

/-- Keeps the value of a definition, unless it has one already. -/
def settle (handle : Nat) (v : ρ) (r : Registry τ ρ) : Registry τ ρ :=
  { r with
    definitions := r.definitions.modify handle fun d => { d with value := d.value.or (some v) } }

/-- The value behind a handle, in a state that has the registry as a part. -/
def force {σ : Type} {m : Type → Type} [Monad m] (part : Part σ (Registry τ ρ))
    (build : τ → StateT σ m ρ) (handle : Nat) : StateT σ m (Option ρ) := do
  match (part.get (← get)).definition? handle with
  | none => return none
  | some d =>
    match d.value with
    | some v => return some v
    | none =>
      modify (part.modify (beginRun handle))
      let v ← build d.thunk
      modify (part.modify (settle handle v))
      return some v

/-- The handles under an identifier, oldest first. -/
def handles (r : Registry τ ρ) (id : String) : List Nat :=
  (List.range r.definitions.length).filter fun handle =>
    (r.definitions[handle]?.map (·.id)) == some id

/-- The oldest handle under an identifier. -/
def get? (r : Registry τ ρ) (id : String) : Option Nat :=
  r.definitions.findIdx? fun d => d.id == id

def contains (r : Registry τ ρ) (id : String) : Bool := r.definitions.any fun d => d.id == id

def insertSorted (id : String) : List String → List String
  | [] => [id]
  | first :: rest =>
    if id < first then id :: first :: rest
    else if id = first then first :: rest
    else first :: insertSorted id rest

/-- The identifiers in increasing order, each of them once. -/
def ids (r : Registry τ ρ) : List String :=
  r.definitions.foldl (fun ids d => insertSorted d.id ids) []

def length (r : Registry τ ρ) : Nat := r.definitions.length

def isEmpty (r : Registry τ ρ) : Bool := r.definitions.isEmpty

def describe (r : Registry τ ρ) : String :=
  "Registry \x7b ids: [" ++ String.intercalate ", " (r.ids.map Text.descriptiveQuoted) ++ "] \x7d"

end Registry

end JsonShapes
