import JsonShapes.Accum.Cursor
import JsonShapes.Failure.Basic

/-! # Paths and rejections

A path leads from the decoded value to a place inside it, outermost step first. Flattening a failure
tree gives one rejection per rejected value, with the path that leads to it and the notes passed on
the way.
-/
namespace JsonShapes
set_option autoImplicit false

inductive Step where
  | key (name : String) (presence : Presence)
  | index (position : Nat) (presence : Presence)
  | member (branch : Nat)
  | lazy (id : String)
deriving DecidableEq

abbrev Path := List Step

namespace Path

def root : Path := []

def push (path : Path) (step : Step) : Path := path ++ [step]

/-- The text of the steps; `fresh` as long as nothing has been written. -/
def textFrom : Bool → Path → String
  | _, [] => ""
  | fresh, .key name _ :: rest => (if fresh then name else "." ++ name) ++ textFrom false rest
  | _, .index position _ :: rest => "[" ++ toString position ++ "]" ++ textFrom false rest
  | _, .member branch :: rest => "<" ++ toString branch ++ ">" ++ textFrom false rest
  | fresh, .lazy _ :: rest => textFrom fresh rest

/-- Names are separated by dots, as in `users[0].email<1>`; named definitions are not shown. -/
def text (path : Path) : String := textFrom true path

end Path

/-- A rejected value with its place and the notes around it, outermost first. -/
structure Rejection (ε : Type) where
  path : Path
  actual : Value
  expected : ε
  notes : List ε

variable {ε : Type}

mutual

def Failure.rejectionsAt (path : Path) (notes : List ε) : Failure ε → List (Rejection ε)
  | .leaf actual expected => [⟨path, actual, expected, notes⟩]
  | .key name presence within => Failures.rejectionsAt (path.push (.key name presence)) notes within
  | .index position presence within =>
    Failures.rejectionsAt (path.push (.index position presence)) notes within
  | .member branch within => Failures.rejectionsAt (path.push (.member branch)) notes within
  | .lazy id within => Failures.rejectionsAt (path.push (.lazy id)) notes within
  | .note message within => Failures.rejectionsAt path (notes ++ [message]) within

def Failures.rejectionsAt (path : Path) (notes : List ε) : Failures ε → List (Rejection ε)
  | .single f => f.rejectionsAt path notes
  | .join l r => Failures.rejectionsAt path notes l ++ Failures.rejectionsAt path notes r

end

theorem Failures.rejectionsAt_eq_flatMap (failures : Failures ε) (path : Path) (notes : List ε) :
    failures.rejectionsAt path notes = failures.toList.flatMap (Failure.rejectionsAt path notes) := by
  induction failures with
  | single f => exact (List.flatMap_singleton ..).symm
  | join l r ihLeft ihRight =>
    rw [Failures.rejectionsAt, ihLeft, ihRight, Accum.toList_join, List.flatMap_append]

/-- A cursor comes past the failures in the order in which their rejections are listed. -/
theorem Failures.rejectionsAt_eq_drain (failures : Failures ε) (path : Path) (notes : List ε) :
    failures.rejectionsAt path notes = failures.cursor.drain.flatMap (Failure.rejectionsAt path notes) := by
  rw [Accum.drain_cursor, Failures.rejectionsAt_eq_flatMap]

/-- One rejection per rejected value, in the order of the tree. -/
def Failures.rejections (failures : Failures ε) : List (Rejection ε) :=
  failures.rejectionsAt Path.root []

end JsonShapes
