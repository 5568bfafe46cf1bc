import JsonShapes.Proofs.Limits
import JsonShapes.Proofs.Parallel.Verdicts
import JsonShapes.Proofs.Shelving.Settled

/-! # Decoders and guards on shelves

Shapes are shelved twice, as decoders and as guards. What is found on a shelf is the shape of the thunk of its call
site, built with the handles that the references have there, so whatever a run on the shelves gives is what the
shape gives when it is read without them.
-/
namespace JsonShapes
set_option autoImplicit false

namespace Shapes
variable (S : Shapes)

def decoderLink (c : CallSite) : ShelfLink := ⟨.decoders, c.id, c.site, S.thunk c⟩

def guardLink (c : CallSite) : ShelfLink := ⟨.guards, c.id, c.site, S.thunk c⟩

def blueprints : Blueprints where
  guards := Entries.mapValues (·.guard S.guardLink) S.named
  decoders := Entries.mapValues (·.decoder S.decoderLink) S.named
  encoders := []
  codecs := []

def anything : Contents := .ofCodecs fun _ => True

/-- The registry has the thunks of the call sites, and their shapes as they are built on all later shelves. -/
structure Fits {ρ : Type} (link : CallSite → ShelfLink) (build : (CallSite → Handle) → Shape → ρ)
    (r : Registry String ρ) (t : Shelves) : Prop where
  thunks : ∀ d ∈ r.definitions, d.thunk = S.thunk ⟨d.id, d.site⟩
  values : ∀ {i v}, r.settled? i = some v → ∃ c s, r.places[i]? = some (c.id, c.site) ∧ S.find? c = some s ∧
    ∀ t', t.Grows anything t' → v = build (fun c => t'.place (link c)) s

structure Sound (t : Shelves) : Prop where
  guards : S.Fits S.guardLink Shape.guard t.guards t
  decoders : S.Fits S.decoderLink Shape.decoder t.decoders t

theorem sound_empty : S.Sound .empty where
  guards := ⟨List.forall_mem_nil _, nofun⟩
  decoders := ⟨List.forall_mem_nil _, nofun⟩

variable {S}

/-! ## What fits -/

namespace Fits
variable {ρ : Type} {link : CallSite → ShelfLink} {build : (CallSite → Handle) → Shape → ρ}
variable {r : Registry String ρ} {t t' : Shelves}

theorem later (h : S.Fits link build r t) (hGrows : t.Grows anything t') : S.Fits link build r t' where
  thunks := h.thunks
  values hSettled := by
    obtain ⟨c, s, hPlace, hFound, hBuilt⟩ := h.values hSettled
    exact ⟨c, s, hPlace, hFound, fun t'' hGrows' => hBuilt t'' (hGrows.trans hGrows')⟩

theorem define (h : S.Fits link build r t) (c : CallSite) :
    S.Fits link build (r.define c.id c.site (S.thunk c)).2 t where
  thunks d hd := by
    rcases Registry.mem_define hd with hd | rfl
    · exact h.thunks d hd
    · rfl
  values hSettled := by
    rw [Registry.settled?_define] at hSettled
    obtain ⟨c', s, hPlace, hRest⟩ := h.values hSettled
    exact ⟨c', s, Registry.place_of_prefix (r.define_spec _ _ _).2.1 hPlace, hRest⟩

theorem beginRun (h : S.Fits link build r t) (index : Nat) : S.Fits link build (r.beginRun index) t :=
  ⟨h.thunks, h.values⟩

theorem settle (h : S.Fits link build r t) {index : Nat} {c : CallSite} {s : Shape} {v : ρ}
    (hPlace : r.places[index]? = some (c.id, c.site)) (hFound : S.find? c = some s)
    (hBuilt : ∀ t', t.Grows anything t' → v = build (fun c => t'.place (link c)) s) :
    S.Fits link build (r.settle index v) t where
  thunks d hd := by
    rcases Registry.mem_settle hd with hd | ⟨old, hOld, rfl⟩
    · exact h.thunks d hd
    · exact h.thunks old (List.mem_of_getElem? hOld)
  values hSettled := by
    rw [Registry.places_settle]
    rcases Registry.settled?_settle_cases hSettled with hOld | ⟨rfl, rfl⟩
    · exact h.values hOld
    · exact ⟨c, s, hPlace, hFound, hBuilt⟩

/-- Where a link is placed there is the shape of its call site. -/
theorem at_place (h : S.Fits link build r t) {c : CallSite} {v : ρ}
    (hSettled : r.settled? (r.places.idxOf (c.id, c.site)) = some v) :
    ∃ s, S.find? c = some s ∧ v = build (fun c => t.place (link c)) s := by
  obtain ⟨c', s, hPlace, hFound, hBuilt⟩ := h.values hSettled
  obtain ⟨hIndex, hSame⟩ := List.getElem?_eq_some_iff.mp hPlace
  rw [List.getElem_idxOf] at hSame
  cases c
  cases c'
  cases hSame
  exact ⟨s, hFound, hBuilt t (.refl t)⟩

end Fits

/-! ## Shelving and finding -/

section
variable {t t' u : Shelves} {s : Shape}

theorem define_decoder_sound (c : CallSite) :
    (Shelves.keeping S.Sound Id).Rel (Shelves.define (S.decoderLink c)) (t.place (S.decoderLink c)) := by
  intro t h t' hRun hSound
  have hGrows : t.Grows anything t' := (Shelves.define_spec (P := anything) (t := t') hRun).1.of_none
  have hGuards := hSound.guards.later hGrows
  have hDecoders := (hSound.decoders.define c).later hGrows
  cases hRun
  exact ⟨hGuards, hDecoders⟩

theorem define_guard_sound (c : CallSite) :
    (Shelves.keeping S.Sound Id).Rel (Shelves.define (S.guardLink c)) (t.place (S.guardLink c)) := by
  intro t h t' hRun hSound
  have hGrows : t.Grows anything t' := (Shelves.define_spec (P := anything) (t := t') hRun).1.of_none
  have hGuards := (hSound.guards.define c).later hGrows
  have hDecoders := hSound.decoders.later hGrows
  cases hRun
  exact ⟨hGuards, hDecoders⟩

/-- What shelving a shape does. -/
structure Shelved {ρ : Type} (S : Shapes) (link : CallSite → ShelfLink) (build : (CallSite → Handle) → Shape → ρ)
    (s : Shape) (t t' : Shelves) (v : ρ) : Prop where
  grows : t.Grows .none t'
  sound : S.Sound t → S.Sound t'
  built : ∀ u, t'.Grows anything u → v = build (fun c => u.place (link c)) s

theorem decoder_shelved {d : Decoder Handle}
    (hRun : ((s.decoder S.decoderLink).mapRefs Shelves.define).run t = some (d, t')) :
    S.Shelved S.decoderLink Shape.decoder s t t' d where
  grows := (Shape.mapRefs_decoder (Shelves.placing anything t') (fun _ => Shelves.define_spec) s hRun).1
  sound := Shape.mapRefs_decoder (Shelves.keeping S.Sound Id) (define_decoder_sound (t := t)) s hRun
  built u := (Shape.mapRefs_decoder (Shelves.placing anything u) (fun _ => Shelves.define_spec) s hRun).2

theorem guard_shelved {g : Guard Handle}
    (hRun : ((s.guard S.guardLink).mapRefs Shelves.define).run t = some (g, t')) :
    S.Shelved S.guardLink Shape.guard s t t' g where
  grows := (Shape.mapRefs_guard (Shelves.placing anything t') (fun _ => Shelves.define_spec) s hRun).1
  sound := Shape.mapRefs_guard (Shelves.keeping S.Sound Id) (define_guard_sound (t := t)) s hRun
  built u := (Shape.mapRefs_guard (Shelves.placing anything u) (fun _ => Shelves.define_spec) s hRun).2

end

/-- Beginning and settling leave the shelves sound if what is shelved in between is the shape of the thunk. -/
theorem find_sound {β ρ : Type} {part : Part Shelves (Registry String ρ)} {select : Contents → ρ → Prop}
    {link : CallSite → ShelfLink} {build : (CallSite → Handle) → Shape → ρ} {draw : Shape → β}
    {shelve : β → StateT Shelves Option ρ} (hPart : Shelves.IsShelf part select)
    (hSelect : ∀ v, select anything v) (hFits : ∀ {t}, S.Sound t → S.Fits link build (part.get t) t)
    (hReplace : ∀ {f t}, S.Sound t → t.Grows anything (part.modify f t) →
      S.Fits link build (f (part.get t)) t → S.Sound (part.modify f t))
    (hShelve : ∀ {s t v t'}, (shelve (draw s)).run t = some (v, t') → S.Shelved link build s t t' v)
    {index : Nat} {t t' : Shelves} {v : ρ}
    (hRun : (Shelves.find part (Entries.mapValues draw S.named) shelve index).run t = some (v, t'))
    (hSound : S.Sound t) : S.Sound t' := by
  obtain ⟨d, hDefinition, ⟨_, rfl⟩ | ⟨_, blueprint, u, hFound, hBuild, rfl⟩⟩ := Shelves.find_cases hRun
  · exact hSound
  · rw [Entries.get?_mapValues] at hFound
    obtain ⟨s, hShape, rfl⟩ := Option.map_eq_some_iff.mp hFound
    rw [(hFits hSound).thunks d (List.mem_of_getElem? hDefinition)] at hShape
    have hBegun := hReplace hSound (hPart.write (.beginRun index)) ((hFits hSound).beginRun index)
    have hShelved := hShelve hBuild
    have hEnd := hShelved.sound hBegun
    have hPlace : (part.get t).places[index]? = some (d.id, d.site) := by
      rw [Registry.places, List.getElem?_map]
      exact congrArg (Option.map _) hDefinition
    have hPrefix := (hPart.read hShelved.grows).places
    rw [hPart.get_modify] at hPrefix
    have hSettled := (hFits hEnd).settle (c := ⟨d.id, d.site⟩) (Registry.place_of_prefix hPrefix hPlace) hShape
      hShelved.built
    exact hReplace hEnd (hPart.write (.settle (hSelect v))) hSettled

/-- Without blueprints nothing is shelved. -/
theorem find_nothing {β ρ : Type} {part : Part Shelves (Registry String ρ)} {shelve : β → StateT Shelves Option ρ}
    {index : Nat} {t t' : Shelves} {v : ρ} (hRun : (Shelves.find part [] shelve index).run t = some (v, t'))
    (hSound : S.Sound t) : S.Sound t' := by
  obtain ⟨_, _, ⟨_, rfl⟩ | ⟨_, _, _, hFound, _⟩⟩ := Shelves.find_cases hRun
  · exact hSound
  · cases hFound

theorem resolver_sound (u : Shelves) :
    Resolver.InLockstep (Shelves.keeping S.Sound Option) (Shelves.resolver S.blueprints) u.settled where
  stop h := nomatch h
  guard h := by
    obtain ⟨shelf, index⟩ := h
    cases shelf with
    | guards =>
      exact find_sound Shelves.guardPart_isShelf (fun _ => trivial) (·.guards)
        (fun hSound hGrows hFits => ⟨hFits.later hGrows, hSound.decoders.later hGrows⟩) guard_shelved
    | _ =>
      intro _ _ _ hRun
      cases hRun
  decoder h := by
    obtain ⟨shelf, index⟩ := h
    cases shelf with
    | decoders =>
      exact find_sound Shelves.decoderPart_isShelf (fun _ => trivial) (·.decoders)
        (fun hSound hGrows hFits => ⟨hSound.guards.later hGrows, hFits.later hGrows⟩) decoder_shelved
    | codecs =>
      intro t d t' hRun
      obtain ⟨⟨c, _⟩, hCodec, hEnd⟩ := Option.bind_eq_some_iff.mp hRun
      cases hEnd
      exact find_nothing hCodec
    | _ =>
      intro _ _ _ hRun
      cases hRun
  encoder h := by
    obtain ⟨shelf, index⟩ := h
    cases shelf with
    | encoders =>
      intro t e t' hRun
      have hFind : (Shelves.find Shelves.encoderPart S.blueprints.encoders (Encoder.mapRefs Shelves.define)
          index).run t = some (e, t') := hRun
      exact find_nothing hFind
    | codecs =>
      intro t e t' hRun
      obtain ⟨⟨c, _⟩, hCodec, hEnd⟩ := Option.bind_eq_some_iff.mp hRun
      cases hEnd
      exact find_nothing hCodec
    | _ =>
      intro _ _ _ hRun
      cases hRun

/-! ## Reading shelves -/

section
variable {t : Shelves}

theorem Sound.follow_test (h : S.Sound t) (n : Nat) (c : CallSite) : Lockstep.defined.Pointwise
    (t.settled.followTest n (t.place (S.guardLink c))) (S.resolver.followTest n c) := by
  induction n generalizing c with
  | zero =>
    intro v b hb
    cases hb
  | succ n ih =>
    intro v b hb
    obtain ⟨g, hGuard, hRun⟩ := Option.bind_eq_some_iff.mp hb
    obtain ⟨s, hFound, rfl⟩ := h.guards.at_place hGuard
    rw [Shape.run_guard] at hRun
    have hSame := (s.guard id).run_lockstep Lockstep.defined ih v b hRun
    exact Option.bind_eq_some_iff.mpr ⟨_, congrArg (Option.map _) hFound, hSame⟩

/-- A place for decoders has no guard. -/
theorem follow_test_decoder (n : Nat) (c : CallSite) : Lockstep.defined.Pointwise
    (t.settled.followTest n (t.place (S.decoderLink c))) (S.resolver.followTest n c) := by
  intro v b hb
  have hNone : t.settled.followTest n (t.place (S.decoderLink c)) v = none := by cases n <;> rfl
  cases hNone.symm.trans hb

theorem Sound.follow_check (h : S.Sound t) (n : Nat) (c : CallSite) : Lockstep.defined.Pointwise
    (t.settled.followCheck n (t.place (S.decoderLink c))) (S.resolver.followCheck n c) := by
  induction n generalizing c with
  | zero =>
    intro v r hr
    cases hr
  | succ n ih =>
    intro v r hr
    obtain ⟨d, hDecoder, hRun⟩ := Option.bind_eq_some_iff.mp hr
    obtain ⟨s, hFound, rfl⟩ := h.decoders.at_place hDecoder
    rw [Shape.run_decoder] at hRun
    have hSame := (s.decoder id).run_lockstep Lockstep.defined (follow_test_decoder n) ih v r hRun
    exact Option.bind_eq_some_iff.mpr ⟨_, congrArg (Option.map _) hFound, hSame⟩

theorem Sound.decode (h : S.Sound t) {n : Nat} {s : Shape} {v : Value} {r : Decoded Value}
    (hr : t.settled.decode n (s.decoder fun c => t.place (S.decoderLink c)) v = some r) :
    S.decode n s v = some r := by
  rw [Resolver.decode, Shape.run_decoder] at hr
  exact (s.decoder id).run_lockstep Lockstep.defined (follow_test_decoder n) (h.follow_check n) v r hr

theorem Sound.accepts (h : S.Sound t) {n : Nat} {s : Shape} {v : Value} {b : Bool}
    (hb : t.settled.test n (s.guard fun c => t.place (S.guardLink c)) v = some b) :
    S.accepts n s v = some b := by
  rw [Resolver.test, Shape.run_guard] at hb
  exact (s.guard id).run_lockstep Lockstep.defined (h.follow_test n) v b hb

end

end Shapes

end JsonShapes
