import JsonShapes.Registry.Basic
import JsonShapes.Resolver

/-! # Shapes written with named links

Decoders, guards, encoders and codecs can also be written down directly. Their definitions are kept on
four shelves, a registry for each. A blueprint is such a shape whose links say on which shelf and under
which name a definition is found; shelving it registers the links and puts handles in their place.
A decoder may refer to codecs, whose decoding half it then means, and in the same way an encoder.
-/
namespace JsonShapes
set_option autoImplicit false

inductive Shelf where
  | guards
  | decoders
  | encoders
  | codecs
deriving DecidableEq

structure ShelfLink where
  shelf : Shelf
  id : String
  site : Nat
  target : String

structure Handle where
  shelf : Shelf
  index : Nat

structure Blueprints where
  guards : Entries (Guard ShelfLink)
  decoders : Entries (Decoder ShelfLink)
  encoders : Entries (Encoder ShelfLink)
  codecs : Entries (Codec ShelfLink)

structure Shelves where
  guards : Registry String (Guard Handle)
  decoders : Registry String (Decoder Handle)
  encoders : Registry String (Encoder Handle)
  codecs : Registry String (Codec Handle)

namespace Shelves

def empty : Shelves := ⟨.empty, .empty, .empty, .empty⟩

def guardPart : Part Shelves (Registry String (Guard Handle)) where
  get s := s.guards
  modify f s := { s with guards := f s.guards }

def decoderPart : Part Shelves (Registry String (Decoder Handle)) where
  get s := s.decoders
  modify f s := { s with decoders := f s.decoders }

def encoderPart : Part Shelves (Registry String (Encoder Handle)) where
  get s := s.encoders
  modify f s := { s with encoders := f s.encoders }

def codecPart : Part Shelves (Registry String (Codec Handle)) where
  get s := s.codecs
  modify f s := { s with codecs := f s.codecs }

def defineIn {ρ : Type} (part : Part Shelves (Registry String ρ)) (link : ShelfLink) :
    StateT Shelves Option Handle := modifyGet fun s =>
  let (index, registry) := (part.get s).define link.id link.site link.target
  (⟨link.shelf, index⟩, part.modify (fun _ => registry) s)

def define (link : ShelfLink) : StateT Shelves Option Handle :=
  match link.shelf with
  | .guards => defineIn guardPart link
  | .decoders => defineIn decoderPart link
  | .encoders => defineIn encoderPart link
  | .codecs => defineIn codecPart link

/-- What is on a shelf at a position, shelved from its blueprint the first time. -/
def find {β ρ : Type} (part : Part Shelves (Registry String ρ)) (blueprints : Entries β)
    (shelve : β → StateT Shelves Option ρ) (index : Nat) : StateT Shelves Option ρ := do
  let found ← Registry.force part (fun target =>
    match blueprints.get? target with
    | some blueprint => shelve blueprint
    | none => failure) index
  match found with
  | some r => return r
  | none => failure

def guard (b : Blueprints) (h : Handle) : StateT Shelves Option (Guard Handle) :=
  match h.shelf with
  | .guards => find guardPart b.guards (Guard.mapRefs define) h.index
  | _ => failure

def codec (b : Blueprints) (index : Nat) : StateT Shelves Option (Codec Handle) :=
  find codecPart b.codecs (Codec.mapRefs define) index

def decoder (b : Blueprints) (h : Handle) : StateT Shelves Option (Decoder Handle) :=
  match h.shelf with
  | .decoders => find decoderPart b.decoders (Decoder.mapRefs define) h.index
  | .codecs => do return (← codec b h.index).decoder
  | _ => failure

def encoder (b : Blueprints) (h : Handle) : StateT Shelves Option (Encoder Handle) :=
  match h.shelf with
  | .encoders => find encoderPart b.encoders (Encoder.mapRefs define) h.index
  | .codecs => do return (← codec b h.index).encoder
  | _ => failure

def resolver (b : Blueprints) : Resolver (StateT Shelves Option) Handle :=
  ⟨guard b, decoder b, encoder b⟩

def test (b : Blueprints) (g : Guard Handle) (v : Value) : StateT Shelves Option Bool :=
  (resolver b).test Resolver.limit g v

def decode (b : Blueprints) (d : Decoder Handle) (v : Value) : StateT Shelves Option (Decoded Value) :=
  (resolver b).decode Resolver.limit d v

def encode (b : Blueprints) (e : Encoder Handle) (v : Value) : StateT Shelves Option Value :=
  (resolver b).encode Resolver.limit e v

end Shelves

end JsonShapes
