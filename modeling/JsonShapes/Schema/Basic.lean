import JsonShapes.Schema.Cache
import JsonShapes.Value.Basic

/-! # Schemas

A schema describes a shape once; decoders, guards and encoders are read off it. A recursive shape
names the definition it refers to: the link has the identifier that labels failures, the site that
together with it is the key in a registry, and the name under which the schema itself is found.
-/
namespace JsonShapes
set_option autoImplicit false

structure Link where
  id : String
  site : Nat
  target : String
deriving DecidableEq

inductive Schema where
  | kind (k : Kind)
  | literal (values : List Value)
  | nullable (or : Schema)
  | object (props : List (String × Schema))
  | partialObject (props : List (String × Schema))
  | record (of : Schema)
  | array (of : Schema)
  | tuple (slots : List Schema)
  | union (members : List Schema)
  | inter (left right : Schema)
  | tagged (tag : String) (members : List (String × Schema))
  | refine (of : Schema) (holds : Value → Bool) (expected : String)
  | lazy (link : Link)
  | make (key : Option SchemaKey) (body : Schema)

/-- The schemas that links refer to. -/
abbrev Definitions := Entries Schema

namespace Schema

mutual

/-- The links of a schema from left to right. -/
def links : Schema → List Link
  | kind _ | literal _ => []
  | nullable s | record s | array s | refine s _ _ | make _ s => s.links
  | object props | partialObject props | tagged _ props => linksNamed props
  | tuple items | union items => linksEach items
  | inter left right => left.links ++ right.links
  | lazy link => [link]

def linksEach : List Schema → List Link
  | [] => []
  | s :: rest => s.links ++ linksEach rest

def linksNamed : List (String × Schema) → List Link
  | [] => []
  | (_, s) :: rest => s.links ++ linksNamed rest

end

end Schema

end JsonShapes
