import JsonShapes.Decoder.Check
import JsonShapes.Guard.Basic

/-! # Decoders

A decoder is a tree of check combinators with references where a shape is recursive. Failures that
come from behind a reference are located under the identifier of the definition.
-/
namespace JsonShapes
set_option autoImplicit false

inductive Decoder (ρ : Type) where
  | any
  | kind (k : Kind)
  | float
  | literal (values : List Value)
  | guarded (guard : Guard ρ) (expected : String)
  | andThen (of : Decoder ρ) (next : Value → Value → Decoded Value)
  | compose (of next : Decoder ρ)
  | alt (of that : Decoder ρ)
  | mapFailures (of : Decoder ρ) (f : Value → Failures String → Failures String)
  | nullable (or : Decoder ρ)
  | object (props : List (String × Decoder ρ))
  | partialObject (props : List (String × Decoder ρ))
  | record (of : Decoder ρ)
  | array (of : Decoder ρ)
  | tuple (slots : List (Decoder ρ))
  | union (members : List (Decoder ρ))
  | inter (left right : Decoder ρ)
  | tagged (tag : String) (members : List (String × Decoder ρ))
  | lazy (id : String) (ref : ρ)

namespace Decoder
variable {ρ σ : Type} {m : Type → Type} [Monad m]

def map (d : Decoder ρ) (f : Value → Value) : Decoder ρ := andThen d fun _ w => .ok (f w)

def parse (d : Decoder ρ) (f : Value → Decoded Value) : Decoder ρ := andThen d fun _ w => f w

/-- The predicate sees the decoded value. -/
def refine (d : Decoder ρ) (holds : Value → Bool) (expected : String) : Decoder ρ :=
  andThen d fun _ w => if holds w then .ok w else Decoded.reject w expected

/-- The predicate sees the input, the failure shows the decoded value. -/
def restrict (d : Decoder ρ) (holds : Value → Bool) (expected : String) : Decoder ρ :=
  andThen d fun v w => if holds v then .ok w else Decoded.reject w expected

/-- A string in which `p` occurs; `written` is the text of the pattern. -/
def pattern (p : Pattern) (written : String) : Decoder ρ :=
  refine (kind .string) (fun w => (w.string?.map p.isMatch).getD false)
    ("string matching /" ++ written ++ "/")

/-- Puts every failure under a message made from the input and the failures. -/
def withMessage (d : Decoder ρ) (message : Value → Failures String → String) : Decoder ρ :=
  mapFailures d fun v e => .single (.note (message v e) e)

mutual

def run (test : ρ → Test m) (follow : ρ → Check m) : Decoder ρ → Check m
  | any => Check.any
  | kind k => Check.kind k
  | float => Check.float
  | literal values => Check.literal values
  | guarded guard expected => Check.guarded (guard.run test) expected
  | andThen of next => Check.andThen (of.run test follow) next
  | compose of next => Check.compose (of.run test follow) (next.run test follow)
  | alt of that => Check.alt (of.run test follow) (that.run test follow)
  | mapFailures of f => Check.mapFailures (of.run test follow) f
  | nullable or => Check.nullable (or.run test follow)
  | object props => Check.object (runNamed test follow props)
  | partialObject props => Check.partialObject (runNamed test follow props)
  | record of => Check.record (of.run test follow)
  | array of => Check.array (of.run test follow)
  | tuple slots => Check.tuple (runEach test follow slots)
  | union members => Check.union (runEach test follow members)
  | inter left right => Check.inter (left.run test follow) (right.run test follow)
  | tagged tag members => Check.tagged tag (runNamed test follow members)
  | lazy id ref => Check.lazy id (follow ref)

def runEach (test : ρ → Test m) (follow : ρ → Check m) : List (Decoder ρ) → List (Check m)
  | [] => []
  | d :: rest => d.run test follow :: runEach test follow rest

def runNamed (test : ρ → Test m) (follow : ρ → Check m) :
    List (String × Decoder ρ) → List (String × Check m)
  | [] => []
  | (name, d) :: rest => (name, d.run test follow) :: runNamed test follow rest

end

mutual

/-- Replaces every reference, from left to right. -/
def mapRefs (f : ρ → m σ) : Decoder ρ → m (Decoder σ)
  | any => return any
  | kind k => return kind k
  | float => return float
  | literal values => return literal values
  | guarded guard expected => return guarded (← guard.mapRefs f) expected
  | andThen of next => return andThen (← of.mapRefs f) next
  | compose of next => do
    let of ← of.mapRefs f
    let next ← next.mapRefs f
    return compose of next
  | alt of that => do
    let of ← of.mapRefs f
    let that ← that.mapRefs f
    return alt of that
  | mapFailures of g => return mapFailures (← of.mapRefs f) g
  | nullable or => return nullable (← or.mapRefs f)
  | object props => return object (← mapNamed f props)
  | partialObject props => return partialObject (← mapNamed f props)
  | record of => return record (← of.mapRefs f)
  | array of => return array (← of.mapRefs f)
  | tuple slots => return tuple (← mapEach f slots)
  | union members => return union (← mapEach f members)
  | inter left right => do
    let left ← left.mapRefs f
    let right ← right.mapRefs f
    return inter left right
  | tagged tag members => return tagged tag (← mapNamed f members)
  | lazy id ref => return lazy id (← f ref)

def mapEach (f : ρ → m σ) : List (Decoder ρ) → m (List (Decoder σ))
  | [] => return []
  | d :: rest => do
    let d ← d.mapRefs f
    let rest ← mapEach f rest
    return d :: rest

def mapNamed (f : ρ → m σ) : List (String × Decoder ρ) → m (List (String × Decoder σ))
  | [] => return []
  | (name, d) :: rest => do
    let d ← d.mapRefs f
    let rest ← mapNamed f rest
    return (name, d) :: rest

end

/-- Decoders do not show what they are made of. -/
def describe (_ : Decoder ρ) : String := "Decoder \x7b .. \x7d"

end Decoder

end JsonShapes
