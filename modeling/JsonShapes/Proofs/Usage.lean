import JsonShapes.Proofs.Memoization.Contents
import JsonShapes.Proofs.Memoization.Interpreters
import JsonShapes.Proofs.Parts
import JsonShapes.Proofs.WellKeyed

/-! # What an interpreter is used for

An interpreter and its clones share a store, and they have the shapes that were built in it. They build schemas and
run shapes in any order, and a run may build what the shape refers to. Nothing is asked of the identifiers, sites
and keys that the schemas share, unless it is said.
-/
namespace JsonShapes
set_option autoImplicit false

/-- `P` holds of everything that the schemas and the definitions are made of. -/
structure Definitions.Everywhere (P : Schema → Prop) (definitions : Definitions) (schemas : Schema → Prop) : Prop where
  schemas : ∀ s, schemas s → ∀ t ∈ s.nodes, P t
  definitions : ∀ t ∈ Schema.nodesNamed definitions, P t

theorem Definitions.Everywhere.throughout {P : Schema → Prop} {definitions : Definitions} {schemas : Schema → Prop}
    (h : definitions.Everywhere P schemas) {s : Schema} (hs : schemas s) : s.Throughout definitions P :=
  .of_nodes (List.forall_mem_append.mpr ⟨h.schemas s hs, h.definitions⟩)

variable {ρ out : Type}

namespace Interpreter

/-- Runs a shape in a store, where what it refers to is found or else read. -/
abbrev perform (J : Interpreter ρ out) (definitions : Definitions) (bound : Nat) (r : ρ) (v : Value) :
    StateT (Store ρ) Option out := J.run (Store.resolve J.interpretation definitions) bound r v

/-- One of the schemas is built, or a shape that has been built is run. -/
inductive Use (J : Interpreter ρ out) (definitions : Definitions) (schemas : Schema → Prop) :
    Store ρ × List ρ → Store ρ × List ρ → Prop
  | build {s t : Store ρ} {shapes : List ρ} {schema : Schema} {r : ρ} : schemas schema →
    (Store.build J.interpretation schema).run s = some (r, t) → Use J definitions schemas (s, shapes) (t, r :: shapes)
  | run {s t : Store ρ} {shapes : List ρ} {r : ρ} {bound : Nat} {v : Value} {result : out} : r ∈ shapes →
    v.WellKeyed → (J.perform definitions bound r v).run s = some (result, t) →
    Use J definitions schemas (s, shapes) (t, shapes)

def Uses (J : Interpreter ρ out) (definitions : Definitions) (schemas : Schema → Prop) :
    Store ρ × List ρ → Store ρ × List ρ → Prop := Relation.ReflTransGen (J.Use definitions schemas)

/-- The store and the shapes of an interpreter that has been used for the schemas. -/
def Reached (J : Interpreter ρ out) (definitions : Definitions) (schemas : Schema → Prop) (s : Store ρ)
    (shapes : List ρ) : Prop := J.Uses definitions schemas (.empty, []) (s, shapes)

variable {J : Interpreter ρ out} {definitions : Definitions} {schemas : Schema → Prop} {P : ρ → Prop}
variable {p q : Store ρ × List ρ} {s : Store ρ} {shapes : List ρ}

/-! ## What is found -/

section
variable (hBuild : ∀ schema, schemas schema → (Store.building P).Holds (schema.build J.interpretation) P)
variable (hRun : ∀ bound r v, P r → v.WellKeyed →
  (Store.running P).Holds (J.perform definitions bound r v) fun _ => True)
include hBuild hRun

theorem Use.all (h : J.Use definitions schemas p q) (hp : p.1.All P ∧ ∀ r ∈ p.2, P r) :
    q.1.All P ∧ ∀ r ∈ q.2, P r := by
  cases h with
  | build hSchema hBuilt =>
    obtain ⟨hAll, hShape⟩ := Store.build_promise (hBuild _ hSchema) _ hp.1 _ _ hBuilt
    exact ⟨hAll, List.forall_mem_cons.mpr ⟨hShape, hp.2⟩⟩
  | run hMem hKeys hRan => exact ⟨(hRun _ _ _ (hp.2 _ hMem) hKeys _ hp.1 _ _ hRan).1, hp.2⟩

/-- What every schema is built to is there, and all that is found in the store. -/
theorem Reached.all (h : J.Reached definitions schemas s shapes) : s.All P ∧ ∀ r ∈ shapes, P r := by
  have hAll : ∀ q, J.Uses definitions schemas (.empty, []) q → q.1.All P ∧ ∀ r ∈ q.2, P r := by
    intro q hq
    induction hq with
    | refl => exact ⟨Store.all_empty, List.forall_mem_nil _⟩
    | tail _ hUse ih => exact hUse.all hBuild hRun ih
  exact hAll (s, shapes) h

end

/-- The store is sound, and every shape is one of the schemas as it is read directly. -/
structure Sound (J : Interpreter ρ out) (definitions : Definitions) (schemas : Schema → Prop) (A : Assignment)
    (p : Store ρ × List ρ) : Prop where
  store : p.1.Sound J.interpretation definitions A
  shapes : ∀ r ∈ p.2, ∃ schema, schemas schema ∧ p.1.Represents J.interpretation schema r

section
variable {A : Assignment} {evaluate : Definitions → Nat → Schema → Value → Option out} (hJ : J.Faithful evaluate)
variable (hDefinitions : definitions.Follow A) (hSchemas : ∀ schema, schemas schema → schema.Follows A)
include hJ hDefinitions hSchemas

theorem Use.sound (h : J.Use definitions schemas p q) (hp : J.Sound definitions schemas A p) :
    J.Sound definitions schemas A q := by
  have hLater : ∀ t : Store ρ, p.1.Extends t → ∀ r ∈ p.2, ∃ schema, schemas schema ∧
      t.Represents J.interpretation schema r := by
    intro t hExtends r hr
    obtain ⟨schema, hSchema, hRead⟩ := hp.shapes r hr
    exact ⟨schema, hSchema, hRead.mono hExtends⟩
  cases h with
  | @build s t shapes schema r hSchema hBuilt =>
    obtain ⟨hSound, hExtends, hRead⟩ :=
      Store.build_keeps J.interpretation definitions schema (hSchemas schema hSchema) s hp.store trivial
    have hResult : (schema.build J.interpretation).run s = (r, t) := Option.some.inj hBuilt
    rw [hResult] at hSound hExtends hRead
    exact ⟨hSound, List.forall_mem_cons.mpr ⟨⟨schema, hSchema, hRead⟩, hLater t hExtends⟩⟩
  | @run s t shapes r bound v result hMem _ hRan =>
    obtain ⟨schema, hSchema, hRead⟩ := hp.shapes r hMem
    have hAnswer := hJ hDefinitions (hSchemas schema hSchema) hRead bound v s hp.store (.refl s)
    rw [← hAnswer.result_eq, hRan] at hAnswer
    obtain ⟨_, hSame, hSound, hExtends⟩ := hAnswer
    cases hSame
    exact ⟨hSound, hLater t hExtends⟩

/-- Every identifier and site must have one thunk, and every key one schema. -/
theorem Reached.sound (h : J.Reached definitions schemas s shapes) : J.Sound definitions schemas A (s, shapes) := by
  have hAll : ∀ q, J.Uses definitions schemas (.empty, []) q → J.Sound definitions schemas A q := by
    intro q hq
    induction hq with
    | refl => exact ⟨Store.sound_empty definitions A, List.forall_mem_nil _⟩
    | tail _ hUse ih => exact hUse.sound hJ hDefinitions hSchemas ih
  exact hAll _ h

end

end Interpreter

end JsonShapes
