import JsonShapes.Schema.Interpretation
import JsonShapes.Resolver

/-! # Evaluating schemas directly

A schema means what it means without any store: each time a link is followed, the schema it names is
read afresh, and so is every schema that is made. Sessions keep what they have read, but what they
answer is measured against this evaluation.
-/
namespace JsonShapes
set_option autoImplicit false

/-- Reads the schema a link names each time the link is followed. -/
def Definitions.resolver (definitions : Definitions) : Resolver Option Link where
  guard link := (definitions.get? link.target).map (·.unfold .guarding)
  decoder link := (definitions.get? link.target).map (·.unfold .decoding)
  encoder link := (definitions.get? link.target).map (·.unfold .encoding)

namespace Schema

def decode (definitions : Definitions) (bound : Nat) (s : Schema) (v : Value) :
    Option (Decoded Value) :=
  (Definitions.resolver definitions).decode bound (s.unfold .decoding) v

def accepts (definitions : Definitions) (bound : Nat) (s : Schema) (v : Value) : Option Bool :=
  (Definitions.resolver definitions).test bound (s.unfold .guarding) v

def encode (definitions : Definitions) (bound : Nat) (s : Schema) (v : Value) : Option Value :=
  (Definitions.resolver definitions).encode bound (s.unfold .encoding) v

end Schema

end JsonShapes
