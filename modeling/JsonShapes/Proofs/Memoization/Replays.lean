import JsonShapes.Proofs.Growth
import JsonShapes.Proofs.Histories.Makings
import JsonShapes.Proofs.Terms
import JsonShapes.Proofs.Usage

/-! # Runs done again in a store

Building a schema settles no definition, and running a shape settles those that it follows. So a run that has ended
can be done again in the store that it has left behind and in every store that comes later: all that it has found is
settled there, and nothing is built. What it gives is what the settled definitions give without effects.
-/
namespace JsonShapes
set_option autoImplicit false

variable {ρ : Type}

/-- Nothing is asked of what is settled. -/
def Store.Grows (s s' : Store ρ) : Prop := s.registry.Grows (fun _ => True) s'.registry

namespace Store
variable {P : ρ → Prop} {I : Interpretation Nat ρ} {definitions : Definitions} {s s' : Store ρ}

/-! ## Building -/

theorem make_grows (key : Option SchemaKey) {read : StateM (Store ρ) ρ}
    (hRead : ∀ s : Store ρ, s.registry.Grows P (read.run s).2.registry) (s : Store ρ) :
    s.registry.Grows P ((make key read).run s).2.registry := by
  cases key with
  | none => exact hRead { s with made := s.made ++ [none] }
  | some k =>
    cases hCache : s.cache.get? k with
    | some kept =>
      rw [make_hit hCache]
      exact .refl _
    | none =>
      rw [make_miss hCache]
      exact hRead { s with made := s.made ++ [some k] }

end Store

theorem Making.run_grows {P : ρ → Prop} (making : Making ρ) (s : Store ρ) :
    s.registry.Grows P (making.run.run s).2.registry := by
  induction making generalizing s with
  | done result => exact .refl _
  | define link next ih =>
    have hDefined : s.registry.Grows P ((Store.define link).run s).2.registry := .define link.id link.site link.target
    exact hDefined.trans (ih _ _)
  | make key interpret next ihInterpret ihNext => exact (Store.make_grows key ihInterpret s).trans (ihNext _ _)

namespace Store
variable {P : ρ → Prop} {I : Interpretation Nat ρ} {definitions : Definitions} {s s' : Store ρ}

/-- Building settles nothing. -/
theorem build_grows {schema : Schema} {r : ρ} (h : (build I schema).run s = some (r, s')) :
    s.registry.Grows P s'.registry := by
  have hMaking : s.registry.Grows P (((schema.making I .done).run).run s).2.registry := Making.run_grows _ s
  have hBuilt : (schema.making I .done).run = schema.build I := (schema.run_making I .done).trans (bind_pure _)
  have hResult : (schema.build I).run s = (r, s') := Option.some.inj h
  rwa [hBuilt, hResult] at hMaking

/-! ## Finding -/

theorem resolve_settled {handle : Nat} {r : ρ} (h : s.registry.settled? handle = some r) :
    (resolve I definitions handle).run s = some (r, s) := by
  obtain ⟨d, hDefinition, hValue⟩ := Option.bind_eq_some_iff.mp h
  have hDefinition : (registryPart.get s).definition? handle = some d := hDefinition
  rw [resolve_run, Registry.force_kept hDefinition hValue]
  rfl

theorem resolve_grows {handle : Nat} {r : ρ} (h : (resolve I definitions handle).run s = some (r, s')) :
    s.Grows s' ∧ s'.registry.settled? handle = some r := by
  rw [resolve_run] at h
  obtain ⟨⟨found, s''⟩, hForce, h⟩ := Option.bind_eq_some_iff.mp h
  obtain ⟨_, rfl, h⟩ := Option.map_eq_some_iff.mp h
  cases h
  obtain ⟨d, hDefinition, ⟨hValue, rfl⟩ | ⟨hValue, t, hBuild, rfl⟩⟩ := Registry.force_cases hForce
  · exact ⟨.refl _, (Registry.settled?_of_definition hDefinition).trans hValue⟩
  · cases hFound : definitions.get? d.thunk with
    | none =>
      rw [hFound] at hBuild
      cases hBuild
    | some schema =>
      rw [hFound] at hBuild
      have hBegun : s.registry.Grows (fun _ => False) (registryPart.modify (Registry.beginRun handle) s).registry :=
        .beginRun handle
      have hBuilt := hBegun.trans (build_grows hBuild)
      exact ⟨(hBuilt.mono nofun).trans (.settle trivial), Registry.settled?_settle_open hBuilt hDefinition hValue⟩

end Store

/-! ## Encoding -/

namespace Interpreter
variable {definitions : Definitions} {s t u : Store (Encoder Nat)} {bound : Nat} {e : Encoder Nat} {v w : Value}

/-- Encodes with what is settled in the store, and nothing else. -/
def encodeSettled (t : Store (Encoder Nat)) : Nat → Encoder Nat → Transform Option :=
  (Resolver.ofEncoders t.registry.settled?).encode

theorem encoders_replaying (t : Store (Encoder Nat)) :
    Resolver.InLockstep (.replaying Store.Grows (fun s => .refl s.registry) .trans t)
      (Resolver.ofEncoders (Store.resolve encoders.interpretation definitions))
      (Resolver.ofEncoders t.registry.settled?) where
  stop h := nomatch h
  guard _ _ _ _ h := nomatch h
  decoder _ _ _ _ h := nomatch h
  encoder handle s e s' h := by
    obtain ⟨hGrows, hSettled⟩ := Store.resolve_grows h
    exact ⟨hGrows, fun hLater => hLater.kept hSettled⟩

theorem encoders_resting (t : Store (Encoder Nat)) :
    Resolver.InLockstep (.resting t) (Resolver.ofEncoders (Store.resolve encoders.interpretation definitions))
      (Resolver.ofEncoders t.registry.settled?) where
  stop h := nomatch h
  guard _ _ h := nomatch h
  decoder _ _ h := nomatch h
  encoder _ _ h := Store.resolve_settled h

theorem perform_grows (h : (encoders.perform definitions bound e v).run s = some (w, t)) : s.Grows t :=
  ((encoders_replaying t).encode bound e v h).1

theorem encodeSettled_of_perform (h : (encoders.perform definitions bound e v).run s = some (w, t))
    (hLater : t.Grows u) : encodeSettled u bound e v = some w :=
  ((encoders_replaying u).encode bound e v h).2 hLater

theorem perform_of_encodeSettled (h : encodeSettled t bound e v = some w) :
    (encoders.perform definitions bound e v).run t = some (w, t) :=
  (encoders_resting t).encode bound e v h

theorem Uses.grows {schemas : Schema → Prop} {p q : Store (Encoder Nat) × List (Encoder Nat)}
    (h : encoders.Uses definitions schemas p q) : p.1.Grows q.1 := by
  induction h with
  | refl => exact .refl _
  | tail _ hUse ih =>
    cases hUse with
    | build _ hBuild => exact ih.trans (Store.build_grows hBuild)
    | run _ _ hRun => exact ih.trans (perform_grows hRun)

end Interpreter

end JsonShapes
