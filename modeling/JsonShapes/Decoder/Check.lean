import JsonShapes.Failure.Basic
import JsonShapes.Guard.Test
import JsonShapes.Value.Writer

/-! # Checks

A check turns a value into a decoded value or into failures. Parts that do not depend on each other
are all checked, in order, and every failure is kept; a check that needs the result of another runs
only if that one succeeds. As with tests, the order of the runs is part of the meaning.
-/
namespace JsonShapes
set_option autoImplicit false

abbrev Check (m : Type → Type) := Value → m (Decoded Value)

namespace Check
variable {m : Type → Type} [Monad m]
open Decoded

/-- The values that would have been accepted, as JSON. -/
def alternatives : List Value → String
  | [] => "never"
  | values => String.intercalate " | " (values.map Value.text)

def any : Check m := fun v => pure (.ok v)

def kind (k : Kind) : Check m := fun v =>
  pure (if v.kind = k then .ok v else reject v k.expected)

/-- Any number, as a float. -/
def float : Check m := fun v =>
  pure (match v.toFloat? with
    | some x => .ok (.ofFloat x)
    | none => reject v Kind.number.expected)

def literal (values : List Value) : Check m := fun v =>
  pure (if values.contains v then .ok v else reject v (alternatives values))

def guarded (test : Test m) (expected : String) : Check m := fun v => do
  if ← test v then return .ok v else return reject v expected

/-- A check for a kind of values is the test for it with a message. -/
theorem guarded_kind [LawfulMonad m] (k : Kind) : (guarded (Test.kind k) k.expected : Check m) = kind k := by
  funext v
  rw [guarded, Test.kind, pure_bind, kind]
  by_cases hKind : v.kind = k <;> simp [hKind]

/-- `next` sees the input together with what it was decoded to. -/
def andThen (of : Check m) (next : Value → Value → Decoded Value) : Check m := fun v => do
  match ← of v with
  | .ok w => return next v w
  | .error e => return .error e

def compose (of next : Check m) : Check m := fun v => do
  match ← of v with
  | .ok w => next w
  | .error e => return .error e

def alt (of that : Check m) : Check m := fun v => do
  match ← of v with
  | .ok w => return .ok w
  | .error e => return Checked.mapFailures (.join e) (← that v)

def mapFailures (of : Check m) (f : Value → Failures String → Failures String) : Check m := fun v =>
  return Checked.mapFailures (f v) (← of v)

def lazy (id : String) (of : Check m) : Check m := fun v =>
  return within (.lazy id) (← of v)

/-- Null or what `or` accepts; a value that is neither has failed both alternatives. -/
def nullable (or : Check m) : Check m
  | .null => pure (.ok .null)
  | v => do
    match ← or v with
    | .ok w => return .ok w
    | .error e =>
      return .error (.join (.single (.member 0 (.single (.leaf v "null")))) (.single (.member 1 e)))

/-- Declared properties only, in the order of their declaration; a missing one is checked as null. -/
def object (props : List (String × Check m)) : Check m
  | .obj entries => do
    let fields ← Checked.traverseKeyed props fun name check => do
      let result ← check ((Entries.get? entries name).getD .null)
      return within (.key name .required) result
    return fields.map .obj
  | v => pure (reject v Kind.object.expected)

/-- A missing property is left out and a null one stays null, neither being checked. -/
def partialObject (props : List (String × Check m)) : Check m
  | .obj entries => do
    let present := props.filterMap fun p =>
      (Entries.get? entries p.1).map fun raw => (p.1, p.2, raw)
    let fields ← Checked.traverseKeyed present fun name slot =>
      match slot with
      | (_, .null) => return .ok .null
      | (check, raw) => return within (.key name .optional) (← check raw)
    return fields.map .obj
  | v => pure (reject v Kind.object.expected)

def record (of : Check m) : Check m
  | .obj entries => do
    let fields ← Checked.traverseKeyed entries fun name raw =>
      return within (.key name .required) (← of raw)
    return fields.map .obj
  | v => pure (reject v Kind.object.expected)

def array (of : Check m) : Check m
  | .arr items => do
    let values ← Checked.traverseIndexed items fun i raw =>
      return within (.index i .optional) (← of raw)
    return values.map .arr
  | v => pure (reject v Kind.array.expected)

/-- The elements from position `arity` on, each of them one too many. -/
def extras (arity : Nat) (items : List Value) : Decoded (List Value) :=
  Checked.collect (((items.drop arity).zipIdx arity).map fun item =>
    within (.index item.2 .optional) (reject item.1 "never"))

/-- A missing position is checked as null. -/
def tuple (slots : List (Check m)) : Check m
  | .arr items => do
    let values ← Checked.traverseIndexed slots fun i check =>
      return within (.index i .required) (← check (items[i]?.getD .null))
    return (Checked.both values (extras slots.length items)).map fun both => .arr both.1
  | v => pure (reject v Kind.array.expected)

/-- The first success, or the failures of every member with its number. -/
def firstOf (v : Value) : Nat → List (Check m) → m (Except (List (Failures String)) Value)
  | _, [] => return .error []
  | i, check :: rest => do
    match ← check v with
    | .ok w => return .ok w
    | .error e =>
      match ← firstOf v (i + 1) rest with
      | .ok w => return .ok w
      | .error es => return .error (.single (.member i e) :: es)

def union (members : List (Check m)) : Check m := fun v => do
  match ← firstOf v 0 members with
  | .ok w => return .ok w
  | .error [] => return reject v "never"
  | .error (e :: es) => return .error (.joinAll e es)

def inter (left right : Check m) : Check m := fun v => do
  let l ← left v
  let r ← right v
  return (Checked.both l r).map fun both => both.1.merge both.2

/-- The tag alone selects the member that is run, against the whole object. Of several members with
one name the last counts. -/
def tagged (tag : String) (members : List (String × Check m)) : Check m
  | .obj entries =>
    let members := Entries.ofList members
    let raw := (Entries.get? entries tag).getD .null
    match raw.string?.bind (Entries.get? members) with
    | some check => check (.obj entries)
    | none =>
      let expected := alternatives (members.keys.map .str)
      pure (.error (.single (.key tag .required (.single (.leaf raw expected)))))
  | v => pure (reject v Kind.object.expected)

/-! A value of another kind is rejected before any part is run. -/

variable {v : Value}

theorem object_of_kind (props : List (String × Check m)) (h : v.kind ≠ .object) :
    object props v = pure (reject v Kind.object.expected) := by
  cases v with
  | obj => exact absurd rfl h
  | _ => rfl

theorem partialObject_of_kind (props : List (String × Check m)) (h : v.kind ≠ .object) :
    partialObject props v = pure (reject v Kind.object.expected) := by
  cases v with
  | obj => exact absurd rfl h
  | _ => rfl

theorem record_of_kind (of : Check m) (h : v.kind ≠ .object) :
    record of v = pure (reject v Kind.object.expected) := by
  cases v with
  | obj => exact absurd rfl h
  | _ => rfl

theorem array_of_kind (of : Check m) (h : v.kind ≠ .array) :
    array of v = pure (reject v Kind.array.expected) := by
  cases v with
  | arr => exact absurd rfl h
  | _ => rfl

theorem tuple_of_kind (slots : List (Check m)) (h : v.kind ≠ .array) :
    tuple slots v = pure (reject v Kind.array.expected) := by
  cases v with
  | arr => exact absurd rfl h
  | _ => rfl

theorem tagged_of_kind (tag : String) (members : List (String × Check m)) (h : v.kind ≠ .object) :
    tagged tag members v = pure (reject v Kind.object.expected) := by
  cases v with
  | obj => exact absurd rfl h
  | _ => rfl

end Check

end JsonShapes
