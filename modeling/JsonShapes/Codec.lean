import JsonShapes.Decoder.Basic
import JsonShapes.Encoder.Basic

/-! # Codecs

A codec keeps a decoder and an encoder for one shape together. What it encodes has been decoded before
or comes from a caller who knows the shape, so its encoder first reads the value as one of that shape.
-/
namespace JsonShapes
set_option autoImplicit false

structure Codec (ρ : Type) where
  decoder : Decoder ρ
  encoder : Encoder ρ

namespace Codec
variable {ρ σ : Type} {m : Type → Type} [Monad m]

/-- Encodes every value as it stands. -/
def ofDecoder (d : Decoder ρ) : Codec ρ := ⟨d, .id⟩

def string : Codec ρ := ⟨.kind .string, .convert Value.orEmptyString⟩

def number : Codec ρ := ⟨.float, .convert Value.orZero⟩

def boolean : Codec ρ := ⟨.kind .boolean, .convert Value.orFalse⟩

def anyArray : Codec ρ := ⟨.kind .array, .convert Value.orEmptyArray⟩

def anyObject : Codec ρ := ⟨.kind .object, .convert Value.orEmptyObject⟩

def literal (values : List Value) : Codec ρ := ofDecoder (.literal values)

def nullable (or : Codec ρ) : Codec ρ := ⟨.nullable or.decoder, .nullable or.encoder⟩

def decoders (named : List (String × Codec ρ)) : List (String × Decoder ρ) :=
  named.map fun p => (p.1, p.2.decoder)

def encoders (named : List (String × Codec ρ)) : List (String × Encoder ρ) :=
  named.map fun p => (p.1, p.2.encoder)

def object (props : List (String × Codec ρ)) : Codec ρ :=
  ⟨.object (decoders props), .object (encoders props)⟩

def partialObject (props : List (String × Codec ρ)) : Codec ρ :=
  ⟨.partialObject (decoders props), .partialObject (encoders props)⟩

def record (of : Codec ρ) : Codec ρ := ⟨.record of.decoder, .record of.encoder⟩

def array (of : Codec ρ) : Codec ρ := ⟨.array of.decoder, .array of.encoder⟩

def tuple (slots : List (Codec ρ)) : Codec ρ :=
  ⟨.tuple (slots.map (·.decoder)), .tuple (slots.map (·.encoder))⟩

def inter (left right : Codec ρ) : Codec ρ :=
  ⟨.inter left.decoder right.decoder, .inter left.encoder right.encoder⟩

def tagged (tag : String) (members : List (String × Codec ρ)) : Codec ρ :=
  ⟨.tagged tag (decoders members), .tagged tag (encoders members)⟩

/-- Both halves lead to the same definition. -/
def lazy (id : String) (ref : ρ) : Codec ρ := ⟨.lazy id ref, .lazy ref⟩

def imap (c : Codec ρ) (f back : Value → Value) : Codec ρ :=
  ⟨c.decoder.map f, c.encoder.contramap back⟩

/-- Decodes with `c` and then with `next`; encodes the other way round. In both halves the references of
`c` come first. -/
def compose (c next : Codec ρ) : Codec ρ :=
  ⟨.compose c.decoder next.decoder, .after c.encoder next.encoder⟩

def refine (c : Codec ρ) (holds : Value → Bool) (expected : String) : Codec ρ :=
  { c with decoder := c.decoder.refine holds expected }

def withMessage (c : Codec ρ) (message : Value → Failures String → String) : Codec ρ :=
  { c with decoder := c.decoder.withMessage message }

def mapFailures (c : Codec ρ) (f : Value → Failures String → Failures String) : Codec ρ :=
  { c with decoder := .mapFailures c.decoder f }

/-- Replaces every reference, those of the decoder first. -/
def mapRefs (f : ρ → m σ) (c : Codec ρ) : m (Codec σ) := do
  let decoder ← c.decoder.mapRefs f
  let encoder ← c.encoder.mapRefs f
  return ⟨decoder, encoder⟩

/-- Codecs do not show what they are made of. -/
def describe (_ : Codec ρ) : String := "Codec \x7b .. \x7d"

end Codec

end JsonShapes
