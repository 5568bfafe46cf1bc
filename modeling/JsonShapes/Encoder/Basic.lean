import JsonShapes.Encoder.Transform

/-! # Encoders

An encoder is a tree of transform combinators with references where a shape is recursive. References are
taken from left to right, so `compose` and `after` write the same encoder with its parts in either order.
-/
namespace JsonShapes
set_option autoImplicit false

inductive Encoder (ρ : Type) where
  | convert (f : Value → Value)
  | compose (first next : Encoder ρ)
  | after (last first : Encoder ρ)
  | nullable (or : Encoder ρ)
  | object (props : List (String × Encoder ρ))
  | partialObject (props : List (String × Encoder ρ))
  | record (of : Encoder ρ)
  | array (of : Encoder ρ)
  | tuple (slots : List (Encoder ρ))
  | inter (left right : Encoder ρ)
  | tagged (tag : String) (members : List (String × Encoder ρ))
  | lazy (ref : ρ)

namespace Encoder
variable {ρ σ : Type} {m : Type → Type} [Monad m]

def id : Encoder ρ := convert fun v => v

/-- Converts a value before it is encoded. -/
def contramap (e : Encoder ρ) (f : Value → Value) : Encoder ρ := compose (convert f) e

mutual

def run (follow : ρ → Transform m) : Encoder ρ → Transform m
  | convert f => Transform.convert f
  | compose first next => Transform.compose (first.run follow) (next.run follow)
  | after last first => Transform.compose (first.run follow) (last.run follow)
  | nullable or => Transform.nullable (or.run follow)
  | object props => Transform.object (runNamed follow props)
  | partialObject props => Transform.partialObject (runNamed follow props)
  | record of => Transform.record (of.run follow)
  | array of => Transform.array (of.run follow)
  | tuple slots => Transform.tuple (runEach follow slots)
  | inter left right => Transform.inter (left.run follow) (right.run follow)
  | tagged tag members => Transform.tagged tag (runNamed follow members)
  | lazy ref => follow ref

def runEach (follow : ρ → Transform m) : List (Encoder ρ) → List (Transform m)
  | [] => []
  | e :: rest => e.run follow :: runEach follow rest

def runNamed (follow : ρ → Transform m) : List (String × Encoder ρ) → List (String × Transform m)
  | [] => []
  | (name, e) :: rest => (name, e.run follow) :: runNamed follow rest

end

mutual

/-- Replaces every reference, from left to right. -/
def mapRefs (f : ρ → m σ) : Encoder ρ → m (Encoder σ)
  | convert g => return convert g
  | compose first next => do
    let first ← first.mapRefs f
    let next ← next.mapRefs f
    return compose first next
  | after last first => do
    let last ← last.mapRefs f
    let first ← first.mapRefs f
    return after last first
  | nullable or => return nullable (← or.mapRefs f)
  | object props => return object (← mapNamed f props)
  | partialObject props => return partialObject (← mapNamed f props)
  | record of => return record (← of.mapRefs f)
  | array of => return array (← of.mapRefs f)
  | tuple slots => return tuple (← mapEach f slots)
  | inter left right => do
    let left ← left.mapRefs f
    let right ← right.mapRefs f
    return inter left right
  | tagged tag members => return tagged tag (← mapNamed f members)
  | lazy ref => return lazy (← f ref)

def mapEach (f : ρ → m σ) : List (Encoder ρ) → m (List (Encoder σ))
  | [] => return []
  | e :: rest => do
    let e ← e.mapRefs f
    let rest ← mapEach f rest
    return e :: rest

def mapNamed (f : ρ → m σ) : List (String × Encoder ρ) → m (List (String × Encoder σ))
  | [] => return []
  | (name, e) :: rest => do
    let e ← e.mapRefs f
    let rest ← mapNamed f rest
    return (name, e) :: rest

end

/-- Encoders do not show what they are made of. -/
def describe (_ : Encoder ρ) : String := "Encoder \x7b .. \x7d"

end Encoder

end JsonShapes
