import JsonShapes.Proofs.Parallel.Shelving
import JsonShapes.Value.Conversions

/-! # Plain decoders agree with guards

Whatever has been shelved and run before, a shape that is shelved as a decoder and as a guard and run on one value
decodes it exactly if it accepts it.
-/
namespace JsonShapes
set_option autoImplicit false

namespace Shapes
variable {S : Shapes}

/-- The shelves that building shapes and running what is on them lead to from the empty ones. -/
inductive Reachable (S : Shapes) : Shelves → Prop
  | empty : Reachable S .empty
  | decoder {t t' : Shelves} {s : Shape} {d : Decoder Handle} : Reachable S t →
    ((s.decoder S.decoderLink).mapRefs Shelves.define).run t = some (d, t') → Reachable S t'
  | guard {t t' : Shelves} {s : Shape} {g : Guard Handle} : Reachable S t →
    ((s.guard S.guardLink).mapRefs Shelves.define).run t = some (g, t') → Reachable S t'
  | decode {t t' : Shelves} {bound : Nat} {d : Decoder Handle} {v : Value} {r : Decoded Value} : Reachable S t →
    ((Shelves.resolver S.blueprints).decode bound d v).run t = some (r, t') → Reachable S t'
  | test {t t' : Shelves} {bound : Nat} {g : Guard Handle} {v : Value} {answer : Bool} : Reachable S t →
    ((Shelves.resolver S.blueprints).test bound g v).run t = some (answer, t') → Reachable S t'

theorem Reachable.sound {t : Shelves} (h : S.Reachable t) : S.Sound t := by
  have hResolver := resolver_sound (S := S) .empty
  induction h with
  | empty => exact S.sound_empty
  | decoder _ hRun ih => exact (decoder_shelved hRun).sound ih
  | guard _ hRun ih => exact (guard_shelved hRun).sound ih
  | decode _ hRun ih => exact hResolver.decode _ _ _ hRun ih
  | test _ hRun ih => exact hResolver.test _ _ _ hRun ih

theorem resolver_replays (S : Shapes) (t : Shelves) :
    Resolver.InLockstep (Shelves.replaying anything t) (Shelves.resolver S.blueprints) t.settled :=
  Shelves.resolver_replaying (List.forall_mem_nil _) t

variable {t t₁ t₂ : Shelves} {s : Shape} {v : Value}

/-- What a shelved decoder gives, the shape gives without shelves. -/
theorem Sound.shelved_decode (h : S.Sound t) {d : Decoder Handle}
    (hShelved : ((s.decoder S.decoderLink).mapRefs Shelves.define).run t = some (d, t₁)) {bound : Nat}
    {r : Decoded Value} (hRun : ((Shelves.resolver S.blueprints).decode bound d v).run t₁ = some (r, t₂)) :
    S.decode bound s v = some r := by
  have hShape := decoder_shelved hShelved
  have hSound : S.Sound t₂ := (resolver_sound t₂).decode bound d v hRun (hShape.sound h)
  obtain ⟨hGrows, hSettled⟩ := (resolver_replays S t₂).decode bound d v hRun
  have hReplayed := hSettled (.refl t₂)
  rw [hShape.built t₂ hGrows] at hReplayed
  exact hSound.decode hReplayed

theorem Sound.shelved_test (h : S.Sound t) {g : Guard Handle}
    (hShelved : ((s.guard S.guardLink).mapRefs Shelves.define).run t = some (g, t₁)) {bound : Nat}
    {answer : Bool} (hRun : ((Shelves.resolver S.blueprints).test bound g v).run t₁ = some (answer, t₂)) :
    S.accepts bound s v = some answer := by
  have hShape := guard_shelved hShelved
  have hSound : S.Sound t₂ := (resolver_sound t₂).test bound g v hRun (hShape.sound h)
  obtain ⟨hGrows, hSettled⟩ := (resolver_replays S t₂).test bound g v hRun
  have hReplayed := hSettled (.refl t₂)
  rw [hShape.built t₂ hGrows] at hReplayed
  exact hSound.accepts hReplayed

end Shapes

section
variable {S : Shapes} {s : Shape} {t t₁ t₂ u u₁ u₂ : Shelves} {d : Decoder Handle} {g : Guard Handle}

/-- A plain decoder succeeds exactly where the guard of its shape says yes, if both end there. -/
theorem plain_decoder_succeeds_iff_guard_accepts (hShapes : S.Honest) (hShape : s.Honest S)
    (ht : S.Reachable t) (hu : S.Reachable u)
    (hDecoder : ((s.decoder S.decoderLink).mapRefs Shelves.define).run t = some (d, t₁))
    (hGuard : ((s.guard S.guardLink).mapRefs Shelves.define).run u = some (g, u₁))
    {m n : Nat} {v : Value} {r : Decoded Value} {answer : Bool}
    (hDecoded : ((Shelves.resolver S.blueprints).decode m d v).run t₁ = some (r, t₂))
    (hTested : ((Shelves.resolver S.blueprints).test n g v).run u₁ = some (answer, u₂)) :
    (∃ w, r = .ok w) ↔ answer = true := by
  have hFirst := ht.sound.shelved_decode hDecoder hDecoded
  have hSecond := hu.sound.shelved_test hGuard hTested
  rw [← Checked.isOk_iff, Shapes.decode_agrees_accepts hShapes hShape m n v r answer hFirst hSecond]

end

/-- Whether this is an object with a name of two letters or more. -/
def Value.isNamed (v : Value) : Bool := (v.member "name").hasSizeAtLeast 2

namespace Shapes

/-- Either a leaf with a name, of which nothing but the name is decoded, or an array of trees with gaps. -/
def trees : Shapes where
  thunk c := c.id
  named := [("Tree", .alt (.refine (.object [("name", .any)]) Value.isNamed Value.isNamed "named")
    (.array (.nullable (.lazy ⟨"Tree", 1⟩))))]

theorem trees_honest : trees.Honest := by
  intro e he
  cases List.mem_singleton.mp he
  have hAgreeing : trees.Agreeing (.object [("name", .any)]) Value.isNamed Value.isNamed := by
    intro bound v w hw
    cases v with
    | obj entries =>
      cases hw
      rfl
    | _ => cases hw
  exact ⟨⟨⟨trivial, trivial⟩, hAgreeing⟩, trivial⟩

/-- An array of a named leaf, a gap and an empty array. -/
theorem trees_decoder_succeeds_iff_guard_accepts :
    let v : Value := .arr [.obj [("size", .num (.int 1)), ("name", .str "oak")], .null, .arr []]
    ∃ d t₁ r t₂ g u₁ answer u₂,
      (((Shape.lazy ⟨"Tree", 1⟩).decoder trees.decoderLink).mapRefs Shelves.define).run .empty = some (d, t₁) ∧
      ((Shelves.resolver trees.blueprints).decode 3 d v).run t₁ = some (r, t₂) ∧
      (((Shape.lazy ⟨"Tree", 1⟩).guard trees.guardLink).mapRefs Shelves.define).run .empty = some (g, u₁) ∧
      ((Shelves.resolver trees.blueprints).test 2 g v).run u₁ = some (answer, u₂) ∧
      ((∃ w, r = .ok w) ↔ answer = true) := by
  intro v
  have hTree : (Shape.lazy ⟨"Tree", 1⟩).Honest trees := trivial
  exact ⟨_, _, _, _, _, _, _, _, rfl, rfl, rfl, rfl,
    plain_decoder_succeeds_iff_guard_accepts trees_honest hTree .empty .empty rfl rfl (m := 3) (n := 2) (v := v)
      rfl rfl⟩

end Shapes

end JsonShapes
