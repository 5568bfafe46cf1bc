import JsonShapes.Proofs.Histories.Firsts
import JsonShapes.Proofs.Memoization.Sessions

/-! # What is made in a session

A making reads a schema with an interpreter: it defines what the schema refers to and makes other schemas, which
are read in the same way, and may go by what these have become. Reading a schema goes on between the look at the
cache and the entry that is put there, so a making inside another may be the first to fill the place of both.
-/
namespace JsonShapes
set_option autoImplicit false

inductive Making (ρ : Type) where
  | done (result : ρ)
  | define (link : Link) (next : Nat → Making ρ)
  | make (key : Option SchemaKey) (interpret : Making ρ) (next : ρ → Making ρ)

def Making.run {ρ : Type} : Making ρ → StateM (Store ρ) ρ
  | done result => return result
  | define link next => do
    let handle ← Store.define link
    (next handle).run
  | make key interpret next => do
    let result ← Store.make key interpret.run
    (next result).run

/-- A make that has come to its end: the store before and after, and what interpreting has given and left behind,
if the schema had to be interpreted. -/
structure Call (ρ : Type) where
  key : Option SchemaKey
  interpret : Making ρ
  before : Store ρ
  interpreted : Option (ρ × Store ρ)
  result : ρ
  after : Store ρ

/-- The store in which a schema is interpreted, unless the cache has what it becomes. -/
def Store.handover? {ρ : Type} (key : Option SchemaKey) (s : Store ρ) : Option (Store ρ) :=
  match key.bind s.cache.get? with
  | some _ => none
  | none => some { s with made := s.made ++ [key] }

/-- The calls of a making in the order in which they come to their end. -/
def Making.calls {ρ : Type} : Making ρ → Store ρ → List (Call ρ)
  | done _, _ => []
  | define link next, s =>
    let (handle, t) := (Store.define link).run s
    (next handle).calls t
  | make key interpret next, s =>
    let (result, after) := (Store.make key interpret.run).run s
    match s.handover? key with
    | none => ⟨key, interpret, s, none, result, after⟩ :: (next result).calls after
    | some inner =>
      interpret.calls inner ++
        ⟨key, interpret, s, some (interpret.run.run inner), result, after⟩ :: (next result).calls after

namespace Store
variable {ρ : Type} {s : Store ρ} {key : SchemaKey}

theorem make_hit {kept : ρ} (h : s.cache.get? key = some kept) (read : StateM (Store ρ) ρ) :
    (make (some key) read).run s = (kept, s) := by
  simp only [make, StateT.run_bind, StateT.run_get, pure_bind, h]
  rfl

theorem make_miss (h : s.cache.get? key = none) (read : StateM (Store ρ) ρ) :
    (make (some key) read).run s = (insert key (read.run { s with made := s.made ++ [some key] }).1).run
      (read.run { s with made := s.made ++ [some key] }).2 := by
  simp only [make, StateT.run_bind, StateT.run_get, pure_bind, h]
  rfl

theorem make_keyless (s : Store ρ) (read : StateM (Store ρ) ρ) :
    (make none read).run s = read.run { s with made := s.made ++ [none] } := rfl

end Store

/-! ## Schemas -/

namespace Schema
variable {ρ : Type} (I : Interpretation Nat ρ)

mutual

/-- Builds the schema and goes on with what it has become. -/
def making : Schema → (ρ → Making ρ) → Making ρ
  | kind k, next => next (I.kind k)
  | literal values, next => next (I.literal values)
  | nullable or, next => or.making fun r => next (I.nullable r)
  | object props, next => makingNamed props fun rs => next (I.object rs)
  | partialObject props, next => makingNamed props fun rs => next (I.partialObject rs)
  | record of, next => of.making fun r => next (I.record r)
  | array of, next => of.making fun r => next (I.array r)
  | tuple slots, next => makingEach slots fun rs => next (I.tuple rs)
  | union members, next => makingEach members fun rs => next (I.union rs)
  | inter left right, next => left.making fun l => right.making fun r => next (I.inter l r)
  | tagged tag members, next => makingNamed members fun rs => next (I.tagged tag rs)
  | refine of holds expected, next => of.making fun r => next (I.refine r holds expected)
  | lazy link, next => .define link fun handle => next (I.lazy link.id handle)
  | make key body, next => .make key (body.making .done) next

def makingEach : List Schema → (List ρ → Making ρ) → Making ρ
  | [], next => next []
  | s :: rest, next => s.making fun r => makingEach rest fun rs => next (r :: rs)

def makingNamed : List (String × Schema) → (List (String × ρ) → Making ρ) → Making ρ
  | [], next => next []
  | (name, s) :: rest, next => s.making fun r => makingNamed rest fun rs => next ((name, r) :: rs)

end

mutual

theorem run_making (s : Schema) (next : ρ → Making ρ) :
    (s.making I next).run = s.build I >>= fun r => (next r).run := by
  cases s with
  | kind k | literal values =>
    unfold making build
    rfl
  | nullable of | record of | array of | refine of _ _ =>
    unfold making build
    rw [run_making of, bind_assoc]
    rfl
  | object props | partialObject props | tagged _ props =>
    unfold making build
    rw [runNamed_making props, bind_assoc]
    rfl
  | tuple items | union items =>
    unfold making build
    rw [runEach_making items, bind_assoc]
    rfl
  | inter left right =>
    unfold making build
    rw [run_making left, bind_assoc]
    apply bind_congr
    intro l
    rw [run_making right, bind_assoc]
    rfl
  | lazy link =>
    unfold making build
    rfl
  | make key body =>
    have hBody : (body.making I .done).run = body.build I := (run_making body .done).trans (bind_pure _)
    unfold making build
    rw [Making.run, hBody]

theorem runEach_making (schemas : List Schema) (next : List ρ → Making ρ) :
    (makingEach I schemas next).run = buildEach I schemas >>= fun rs => (next rs).run := by
  cases schemas with
  | nil =>
    unfold makingEach buildEach
    rfl
  | cons s rest =>
    unfold makingEach buildEach
    rw [run_making s, bind_assoc]
    apply bind_congr
    intro r
    rw [runEach_making rest, bind_assoc]
    rfl

theorem runNamed_making (schemas : List (String × Schema)) (next : List (String × ρ) → Making ρ) :
    (makingNamed I schemas next).run = buildNamed I schemas >>= fun rs => (next rs).run := by
  cases schemas with
  | nil =>
    unfold makingNamed buildNamed
    rfl
  | cons e rest =>
    unfold makingNamed buildNamed
    rw [run_making e.2, bind_assoc]
    apply bind_congr
    intro r
    rw [runNamed_making rest, bind_assoc]
    rfl

end

end Schema

end JsonShapes
