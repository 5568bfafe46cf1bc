import JsonShapes.Proofs.Memoization.Interpreters

/-! # Decoding, encoding and decoding again

The law of codecs is about three runs with one resolver: what they find and keep on the way is shared. A
codec that is made from a decoder alone writes values as they stand, so its law is about decoding twice.
-/
namespace JsonShapes
set_option autoImplicit false

/-- Decodes a value and, if this succeeds, decodes what it is encoded to. -/
def Resolver.roundTrip {m : Type → Type} {ρ : Type} [Monad m] [MonadExceptOf Unit m] (r : Resolver m ρ)
    (bound : Nat) (c : Codec ρ) (v : Value) : m (Decoded (Value × Decoded Value)) := do
  match ← r.decode bound c.decoder v with
  | .ok a =>
    let again ← r.decode bound c.decoder (← r.encode bound c.encoder a)
    return .ok (a, again)
  | .error e => return .error e

/-- Goes there and back with the codec of the decoder that a schema is read as. -/
def Schema.roundTrip (definitions : Definitions) (bound : Nat) (s : Schema) (v : Value) :
    Option (Decoded (Value × Decoded Value)) :=
  let trip := do
    let d ← Store.build Interpreter.decoders.interpretation s
    let r := Resolver.ofDecoders (Store.resolve Interpreter.decoders.interpretation definitions)
    r.roundTrip bound (.ofDecoder d) v
  trip.run' Store.empty

theorem Lockstep.roundTrip {m n : Type → Type} {ρ σ : Type} [Monad m] [Monad n] [MonadExceptOf Unit m]
    [MonadExceptOf Unit n] (M : Lockstep m n) {r : Resolver m ρ} {q : Resolver n σ} {bound : Nat}
    {c : Codec ρ} {d : Codec σ} (hDecode : M.Pointwise (r.decode bound c.decoder) (q.decode bound d.decoder))
    (hEncode : M.Pointwise (r.encode bound c.encoder) (q.encode bound d.encoder)) :
    M.Pointwise (r.roundTrip bound c) (q.roundTrip bound d) := by
  intro v
  apply M.bind (hDecode v)
  intro result
  cases result with
  | error e => exact M.pure _
  | ok a =>
    refine M.bind (hEncode a) fun w => ?_
    exact M.bind (hDecode w) fun _ => M.pure _

theorem Resolver.roundTrip_eq_ok {ρ : Type} {r : Resolver Option ρ} {bound : Nat} {c : Codec ρ}
    {v a w : Value} {again : Decoded Value} (hDecoded : r.decode bound c.decoder v = some (.ok a))
    (hEncoded : r.encode bound c.encoder a = some w) (hAgain : r.decode bound c.decoder w = some again) :
    r.roundTrip bound c v = some (.ok (a, again)) := by
  rw [roundTrip, hDecoded]
  change (r.encode bound c.encoder a >>= _) = _
  rw [hEncoded]
  change (r.decode bound c.decoder w >>= _) = _
  rw [hAgain]
  rfl

variable {definitions : Definitions} {A : Assignment} {schema : Schema}

/-- In a store of its own a codec does what the direct evaluation does. -/
theorem Schema.roundTrip_eq (hDefinitions : definitions.Follow A) (hSchema : schema.Follows A) (bound : Nat)
    (v : Value) : schema.roundTrip definitions bound v =
      (Definitions.resolver definitions).roundTrip bound (.ofDecoder (schema.unfold .decoding)) v := by
  obtain ⟨hSound, _, hRead⟩ := Store.build_keeps Interpreter.decoders.interpretation definitions schema
    hSchema Store.empty (Store.sound_empty definitions A) trivial
  have hDecode := Interpreter.decoders_faithful hDefinitions hSchema hRead bound
  have hTrip := Lockstep.roundTrip (c := .ofDecoder _) (d := .ofDecoder (schema.unfold .decoding)) _ hDecode
    (fun w => Lockstep.pure _ w)
  exact (hTrip v _ hSound (Store.Extends.refl _)).result_eq

end JsonShapes
