import JsonShapes.Guard.Test
import JsonShapes.Pattern.Basic

/-! # Guards

A guard is a tree of test combinators. Where a shape is recursive the tree has a reference, and
running the guard asks `follow` for the test behind it.
-/
namespace JsonShapes
set_option autoImplicit false

inductive Guard (ρ : Type) where
  | any
  | kind (k : Kind)
  | literal (values : List Value)
  | refine (of : Guard ρ) (holds : Value → Bool)
  | nullable (or : Guard ρ)
  | object (props : List (String × Guard ρ))
  | partialObject (props : List (String × Guard ρ))
  | record (of : Guard ρ)
  | array (of : Guard ρ)
  | tuple (slots : List (Guard ρ))
  | union (members : List (Guard ρ))
  | inter (left right : Guard ρ)
  | tagged (tag : String) (members : List (String × Guard ρ))
  | lazy (ref : ρ)

namespace Guard
variable {ρ σ : Type} {m : Type → Type} [Monad m]

/-- Accepts what either guard accepts, trying `g` first. -/
def alt (g h : Guard ρ) : Guard ρ := union [g, h]

def pattern (p : Pattern) : Guard ρ :=
  refine (kind .string) fun v => (v.string?.map p.isMatch).getD false

mutual

def run (follow : ρ → Test m) : Guard ρ → Test m
  | any => Test.any
  | kind k => Test.kind k
  | literal values => Test.literal values
  | refine of holds => Test.refine (of.run follow) holds
  | nullable or => Test.nullable (or.run follow)
  | object props => Test.object (runNamed follow props)
  | partialObject props => Test.partialObject (runNamed follow props)
  | record of => Test.record (of.run follow)
  | array of => Test.array (of.run follow)
  | tuple slots => Test.tuple (runEach follow slots)
  | union members => Test.union (runEach follow members)
  | inter left right => Test.inter (left.run follow) (right.run follow)
  | tagged tag members => Test.tagged tag (runNamed follow members)
  | lazy ref => follow ref

def runEach (follow : ρ → Test m) : List (Guard ρ) → List (Test m)
  | [] => []
  | g :: rest => g.run follow :: runEach follow rest

def runNamed (follow : ρ → Test m) : List (String × Guard ρ) → List (String × Test m)
  | [] => []
  | (name, g) :: rest => (name, g.run follow) :: runNamed follow rest

end

mutual

/-- Replaces every reference, from left to right. -/
def mapRefs (f : ρ → m σ) : Guard ρ → m (Guard σ)
  | any => return any
  | kind k => return kind k
  | literal values => return literal values
  | refine of holds => return refine (← of.mapRefs f) holds
  | nullable or => return nullable (← or.mapRefs f)
  | object props => return object (← mapNamed f props)
  | partialObject props => return partialObject (← mapNamed f props)
  | record of => return record (← of.mapRefs f)
  | array of => return array (← of.mapRefs f)
  | tuple slots => return tuple (← mapEach f slots)
  | union members => return union (← mapEach f members)
  | inter left right => do
    let left ← left.mapRefs f
    let right ← right.mapRefs f
    return inter left right
  | tagged tag members => return tagged tag (← mapNamed f members)
  | lazy ref => return lazy (← f ref)

def mapEach (f : ρ → m σ) : List (Guard ρ) → m (List (Guard σ))
  | [] => return []
  | g :: rest => do
    let g ← g.mapRefs f
    let rest ← mapEach f rest
    return g :: rest

def mapNamed (f : ρ → m σ) : List (String × Guard ρ) → m (List (String × Guard σ))
  | [] => return []
  | (name, g) :: rest => do
    let g ← g.mapRefs f
    let rest ← mapNamed f rest
    return (name, g) :: rest

end

/-- Guards do not show what they are made of. -/
def describe (_ : Guard ρ) : String := "Guard \x7b .. \x7d"

end Guard

end JsonShapes
