import JsonShapes.Codec

/-! # Running recursive shapes

A resolver finds what is behind a reference, and finding it may have effects of its own. Following
references can go on for ever when a definition leads back to itself without going into the value, so
running is bounded by the number of references that may be followed one inside the other; a run that
needs more has no result. A run that ends has the same result under every bound that is large enough.
-/
namespace JsonShapes
set_option autoImplicit false

structure Resolver (m : Type → Type) (ρ : Type) where
  guard : ρ → m (Guard ρ)
  decoder : ρ → m (Decoder ρ)
  encoder : ρ → m (Encoder ρ)

namespace Resolver
variable {m : Type → Type} {ρ : Type} [Monad m] [MonadExceptOf Unit m]

/-- A bound that a run reaches only if it goes on for ever: no memory holds so many references that
are being followed at once. -/
def limit : Nat := Nat.pow 2 48

def followTest (r : Resolver m ρ) : Nat → ρ → Test m
  | 0, _ => fun _ => throw ()
  | n + 1, ref => fun v => do (← r.guard ref).run (r.followTest n) v

def followCheck (r : Resolver m ρ) : Nat → ρ → Check m
  | 0, _ => fun _ => throw ()
  | n + 1, ref => fun v => do (← r.decoder ref).run (r.followTest n) (r.followCheck n) v

def followTransform (r : Resolver m ρ) : Nat → ρ → Transform m
  | 0, _ => fun _ => throw ()
  | n + 1, ref => fun v => do (← r.encoder ref).run (r.followTransform n) v

def test (r : Resolver m ρ) (bound : Nat) (g : Guard ρ) : Test m := g.run (r.followTest bound)

def decode (r : Resolver m ρ) (bound : Nat) (d : Decoder ρ) : Check m :=
  d.run (r.followTest bound) (r.followCheck bound)

def encode (r : Resolver m ρ) (bound : Nat) (e : Encoder ρ) : Transform m :=
  e.run (r.followTransform bound)

def ofGuards (f : ρ → m (Guard ρ)) : Resolver m ρ := ⟨f, fun _ => throw (), fun _ => throw ()⟩

def ofDecoders (f : ρ → m (Decoder ρ)) : Resolver m ρ := ⟨fun _ => throw (), f, fun _ => throw ()⟩

def ofEncoders (f : ρ → m (Encoder ρ)) : Resolver m ρ := ⟨fun _ => throw (), fun _ => throw (), f⟩

end Resolver

end JsonShapes
