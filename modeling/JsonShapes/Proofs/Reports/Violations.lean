import JsonShapes.Proofs.Reports.Rejections
import JsonShapes.Schema.Evaluation

/-! # The violations of a schema

What is wrong with a value, as a plain list that is read off the schema: the lists of the parts one after
the other, each with the step that leads to the part in front. No failure tree and no decoded value is
built on the way, except where a refinement shows the value that it refuses.

Whoever surveys a recursive shape may never come to an end, so a survey is bounded as decoding is.
-/
namespace JsonShapes
set_option autoImplicit false

abbrev Survey := Value → Option (List (Rejection String))

namespace Survey

def rejected (v : Value) (expected : String) : List (Rejection String) := [⟨[], v, expected, []⟩]

def located (step : Step) (found : Option (List (Rejection String))) : Option (List (Rejection String)) :=
  found.map fun rejections => rejections.map (Rejection.under step)

/-- The lists of all items, one after the other. -/
def concat {τ α : Type} (f : τ → Option (List α)) : List τ → Option (List α)
  | [] => some []
  | x :: rest => do return (← f x) ++ (← concat f rest)

def kind (k : Kind) : Survey := fun v => if v.kind = k then some [] else some (rejected v k.expected)

def literal (values : List Value) : Survey := fun v =>
  if values.contains v then some [] else some (rejected v (Check.alternatives values))

/-- A property that is missing is null. -/
def object (props : List (String × Survey)) : Survey
  | .obj entries => concat (fun p =>
      located (.key p.1 .required) (p.2 ((Entries.get? entries p.1).getD .null))) props
  | v => some (rejected v Kind.object.expected)

def partialObject (props : List (String × Survey)) : Survey
  | .obj entries => concat (fun p =>
      match Entries.get? entries p.1 with
      | none | some .null => some []
      | some raw => located (.key p.1 .optional) (p.2 raw)) props
  | v => some (rejected v Kind.object.expected)

def record (of : Survey) : Survey
  | .obj entries => concat (fun e => located (.key e.1 .required) (of e.2)) entries
  | v => some (rejected v Kind.object.expected)

def array (of : Survey) : Survey
  | .arr items => concat (fun item => located (.index item.2 .optional) (of item.1)) items.zipIdx
  | v => some (rejected v Kind.array.expected)

/-- The slots, a position that is missing being null, and then every element for which there is none. -/
def tuple (slots : List Survey) : Survey
  | .arr items => do
    let found ← concat (fun slot =>
      located (.index slot.2 .required) (slot.1 (items[slot.2]?.getD .null))) slots.zipIdx
    let extras := (items.zipIdx.drop slots.length).flatMap fun item =>
      (rejected item.1 "never").map (Rejection.under (.index item.2 .optional))
    return found ++ extras
  | v => some (rejected v Kind.array.expected)

/-- The lists of all members, or of those up to the first that finds nothing. -/
def attempts (v : Value) : List Survey → Option (List (List (Rejection String)))
  | [] => some []
  | member :: rest => do
    match ← member v with
    | [] => return [[]]
    | found => return found :: (← attempts v rest)

/-- Nothing if some member finds nothing, and what all of them find otherwise. -/
def union (members : List Survey) : Survey := fun v => do
  match ← attempts v members with
  | [] => return rejected v "never"
  | found =>
    if found.any (·.isEmpty) then return []
    return found.zipIdx.flatMap fun list => list.1.map (Rejection.under (.member list.2))

def nullable (or : Survey) : Survey := union [kind .null, or]

def inter (left right : Survey) : Survey := fun v => do return (← left v) ++ (← right v)

/-- The last member under the tag counts; if there is none, the tags are listed in the order in which
they first occur. -/
def tagged (tag : String) (members : List (String × Survey)) : Survey
  | .obj entries =>
    let raw := (Entries.get? entries tag).getD .null
    match raw.string?.bind fun name => members.reverse.lookup name with
    | some member => member (.obj entries)
    | none =>
      let tags := (members.map (·.1)).eraseDups
      located (.key tag .required) (some (rejected raw (Check.alternatives (tags.map .str))))
  | v => some (rejected v Kind.object.expected)

/-- The predicate is asked about the value itself, and only where nothing else is wrong; what is
shown is the decoded value. -/
def refine (of : Survey) (decoded : Value → Option Value) (holds : Value → Bool) (expected : String) :
    Survey := fun v => do
  match ← of v with
  | [] => if holds v then return [] else return rejected (← decoded v) expected
  | found => return found

def lazy (id : String) (of : Survey) : Survey := fun v => located (.lazy id) (of v)

end Survey

namespace Schema

def decoded? (definitions : Definitions) (bound : Nat) (s : Schema) (v : Value) : Option Value :=
  (s.decode definitions bound v).bind Checked.value?

section
variable (follow : Link → Survey) (decoded : Schema → Value → Option Value)

mutual

def survey : Schema → Survey
  | kind k => Survey.kind k
  | literal values => Survey.literal values
  | nullable or => Survey.nullable (survey or)
  | object props => Survey.object (surveyNamed props)
  | partialObject props => Survey.partialObject (surveyNamed props)
  | record of => Survey.record (survey of)
  | array of => Survey.array (survey of)
  | tuple slots => Survey.tuple (surveyEach slots)
  | union members => Survey.union (surveyEach members)
  | inter left right => Survey.inter (survey left) (survey right)
  | tagged tag members => Survey.tagged tag (surveyNamed members)
  | refine of holds expected => Survey.refine (survey of) (decoded of) holds expected
  | lazy link => Survey.lazy link.id (follow link)
  | make _ body => survey body

def surveyEach : List Schema → List Survey
  | [] => []
  | s :: rest => survey s :: surveyEach rest

def surveyNamed : List (String × Schema) → List (String × Survey)
  | [] => []
  | (name, s) :: rest => (name, survey s) :: surveyNamed rest

end

end

end Schema

def Definitions.survey (definitions : Definitions) : Nat → Link → Survey
  | 0, _, _ => none
  | n + 1, link, v => do
    (← definitions.get? link.target).survey (definitions.survey n) (Schema.decoded? definitions n) v

/-- All that is wrong with a value, in the order of the schema. -/
def Schema.violations (definitions : Definitions) (bound : Nat) (s : Schema) : Survey :=
  s.survey (definitions.survey bound) (Schema.decoded? definitions bound)

end JsonShapes
