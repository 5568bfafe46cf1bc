import JsonShapes.Proofs.Shelving.Growth
import JsonShapes.Proofs.Terms

/-! # Running on settled shelves

Shelving a shape puts handles in the place of its links, and they are the same handles on all later shelves.
A run that has ended can be done again on the shelves that it has left behind: all that it has found is settled
there, so nothing is built and nothing changes. What a run gives is therefore what the shelves in the end
give, and that is a reading without effects.
-/
namespace JsonShapes
set_option autoImplicit false

namespace Shelves

/-! ## Shelving -/

def places (s : Shelves) : Shelf → List (String × Nat)
  | .guards => s.guards.places
  | .decoders => s.decoders.places
  | .encoders => s.encoders.places
  | .codecs => s.codecs.places

def place (s : Shelves) (link : ShelfLink) : Handle :=
  ⟨link.shelf, (s.places link.shelf).idxOf (link.id, link.site)⟩

variable {P : Contents} {s s' t : Shelves}

theorem defineIn_spec {ρ : Type} {part : Part Shelves (Registry String ρ)} {select : Contents → ρ → Prop}
    (hPart : IsShelf part select) {link : ShelfLink} (hPlaces : ∀ s, places s link.shelf = (part.get s).places)
    {h : Handle} (hRun : (defineIn part link).run s = some (h, s')) :
    s.Grows .none s' ∧ (s'.Grows P t → h = t.place link) := by
  have hResult : (defineIn part link).run s =
      some (⟨link.shelf, ((part.get s).define link.id link.site link.target).1⟩,
        part.modify (fun _ => ((part.get s).define link.id link.site link.target).2) s) := rfl
  obtain ⟨rfl, rfl⟩ := Prod.mk.inj (Option.some.inj (hRun.symm.trans hResult))
  obtain ⟨hHandle, _, hMem⟩ := (part.get s).define_spec link.id link.site link.target
  refine ⟨hPart.write (.define _ _ _), fun hGrows => ?_⟩
  have hPrefix := (hPart.read hGrows).places
  rw [hPart.get_modify] at hPrefix
  obtain ⟨later, hLater⟩ := hPrefix
  rw [place, hPlaces, ← hLater, List.idxOf_append_of_mem hMem, hHandle]

theorem define_spec {link : ShelfLink} {h : Handle} (hRun : (define link).run s = some (h, s')) :
    s.Grows .none s' ∧ (s'.Grows P t → h = t.place link) := by
  unfold define at hRun
  split at hRun
  · rename_i hShelf
    exact defineIn_spec guardPart_isShelf (fun s => hShelf ▸ rfl) hRun
  · rename_i hShelf
    exact defineIn_spec decoderPart_isShelf (fun s => hShelf ▸ rfl) hRun
  · rename_i hShelf
    exact defineIn_spec encoderPart_isShelf (fun s => hShelf ▸ rfl) hRun
  · rename_i hShelf
    exact defineIn_spec codecPart_isShelf (fun s => hShelf ▸ rfl) hRun

/-- A computation that only shelves gives what is read from the places on later shelves. -/
def placing (P : Contents) (t : Shelves) : Lockstep (StateT Shelves Option) Id where
  Rel x y := ∀ {s a s'}, x.run s = some (a, s') → s.Grows .none s' ∧ (s'.Grows P t → a = y)
  pure a s _ _ h := by
    cases h
    exact ⟨.refl s, fun _ => rfl⟩
  bind {α β x y f g} hx hf s b s'' h := by
    obtain ⟨⟨a, s'⟩, hFirst, hRest⟩ := Option.bind_eq_some_iff.mp h
    obtain ⟨hGrows, hSame⟩ := hx hFirst
    obtain ⟨hGrows', hSame'⟩ := hf a hRest
    refine ⟨hGrows.trans hGrows', fun hLater => ?_⟩
    have hSame := hSame (hGrows'.of_none.trans hLater)
    rw [hSame' hLater, hSame]
    rfl

/-- What a computation keeps, whatever it is compared with. -/
def keeping (Kept : Shelves → Prop) (n : Type → Type) [Monad n] : Lockstep (StateT Shelves Option) n where
  Rel x _ := ∀ {s a s'}, x.run s = some (a, s') → Kept s → Kept s'
  pure a s _ _ h := by
    cases h
    exact id
  bind hx hf s b s'' h := by
    obtain ⟨⟨a, s'⟩, hFirst, hRest⟩ := Option.bind_eq_some_iff.mp h
    exact fun hs => hf a hRest (hx hFirst hs)

theorem mapRefs_spec {c : Codec ShelfLink} {d : Codec Handle} (h : (c.mapRefs define).run s = some (d, s')) :
    s.Grows .none s' ∧ d = c.relink s'.place := by
  obtain ⟨hGrows, hSame⟩ := c.mapRefs_lockstep (placing .none s') (fun _ => define_spec) h
  exact ⟨hGrows, hSame (.refl s')⟩

/-! ## Running -/

/-- What is settled, and nothing else. -/
def settled (t : Shelves) : Resolver Option Handle where
  guard h := match h.shelf with
    | .guards => t.guards.settled? h.index
    | _ => none
  decoder h := match h.shelf with
    | .decoders => t.decoders.settled? h.index
    | .codecs => (t.codecs.settled? h.index).map (·.decoder)
    | _ => none
  encoder h := match h.shelf with
    | .encoders => t.encoders.settled? h.index
    | .codecs => (t.codecs.settled? h.index).map (·.encoder)
    | _ => none

/-- Whatever a run has given, the same run without effects gives on the shelves that are there in the end. -/
def replaying (P : Contents) (t : Shelves) : Lockstep (StateT Shelves Option) Option :=
  .replaying (Grows P) .refl .trans t

section
variable {b : Blueprints} {Q : Codec Handle → Prop}
variable (hCodecs : ∀ e ∈ b.codecs, ∀ s : Shelves, Q (e.2.relink s.place))
include hCodecs

theorem codec_spec {index : Nat} {c : Codec Handle} (hRun : (codec b index).run s = some (c, s')) :
    s.Grows (.ofCodecs Q) s' ∧ s'.codecs.settled? index = some c := by
  refine find_spec codecPart_isShelf (fun e he s c s' hShelve => ?_) hRun
  obtain ⟨hGrows, rfl⟩ := mapRefs_spec hShelve
  exact ⟨hGrows, hCodecs e he s'⟩

theorem resolver_replaying (t : Shelves) :
    Resolver.InLockstep (replaying (.ofCodecs Q) t) (resolver b) t.settled where
  stop h := nomatch h
  guard h s g s' hRun := by
    obtain ⟨shelf, index⟩ := h
    cases shelf with
    | guards =>
      obtain ⟨hGrows, hSettled⟩ := find_spec guardPart_isShelf (P := .ofCodecs Q) (fun e _ s g s' hShelve =>
        ⟨(e.2.mapRefs_lockstep (placing .none s') (fun _ => define_spec) hShelve).1, trivial⟩) hRun
      exact ⟨hGrows, fun hLater => hLater.guards.kept hSettled⟩
    | _ => cases hRun
  decoder h s d s' hRun := by
    obtain ⟨shelf, index⟩ := h
    cases shelf with
    | decoders =>
      obtain ⟨hGrows, hSettled⟩ := find_spec decoderPart_isShelf (P := .ofCodecs Q) (fun e _ s d s' hShelve =>
        ⟨(e.2.mapRefs_lockstep (placing .none s') (fun _ => define_spec) hShelve).1, trivial⟩) hRun
      exact ⟨hGrows, fun hLater => hLater.decoders.kept hSettled⟩
    | codecs =>
      obtain ⟨⟨c, _⟩, hCodec, hEnd⟩ := Option.bind_eq_some_iff.mp hRun
      cases hEnd
      obtain ⟨hGrows, hSettled⟩ := codec_spec hCodecs hCodec
      exact ⟨hGrows, fun hLater => congrArg (Option.map _) (hLater.codecs.kept hSettled)⟩
    | _ => cases hRun
  encoder h s e s' hRun := by
    obtain ⟨shelf, index⟩ := h
    cases shelf with
    | encoders =>
      obtain ⟨hGrows, hSettled⟩ := find_spec encoderPart_isShelf (P := .ofCodecs Q) (fun e _ s d s' hShelve =>
        ⟨(e.2.mapRefs_lockstep (placing .none s') (fun _ => define_spec) hShelve).1, trivial⟩) hRun
      exact ⟨hGrows, fun hLater => hLater.encoders.kept hSettled⟩
    | codecs =>
      obtain ⟨⟨c, _⟩, hCodec, hEnd⟩ := Option.bind_eq_some_iff.mp hRun
      cases hEnd
      obtain ⟨hGrows, hSettled⟩ := codec_spec hCodecs hCodec
      exact ⟨hGrows, fun hLater => congrArg (Option.map _) (hLater.codecs.kept hSettled)⟩
    | _ => cases hRun

end

theorem resolver_resting (b : Blueprints) (t : Shelves) :
    Resolver.InLockstep (Lockstep.resting t) (resolver b) t.settled where
  stop h := nomatch h
  guard h g hSettled := by
    obtain ⟨shelf, index⟩ := h
    cases shelf with
    | guards => exact find_settled hSettled
    | _ => cases hSettled
  decoder h d hSettled := by
    obtain ⟨shelf, index⟩ := h
    cases shelf with
    | decoders => exact find_settled hSettled
    | codecs =>
      obtain ⟨c, hCodec, rfl⟩ := Option.map_eq_some_iff.mp hSettled
      exact Option.bind_eq_some_iff.mpr ⟨(c, t), find_settled hCodec, rfl⟩
    | _ => cases hSettled
  encoder h e hSettled := by
    obtain ⟨shelf, index⟩ := h
    cases shelf with
    | encoders => exact find_settled hSettled
    | codecs =>
      obtain ⟨c, hCodec, rfl⟩ := Option.map_eq_some_iff.mp hSettled
      exact Option.bind_eq_some_iff.mpr ⟨(c, t), find_settled hCodec, rfl⟩
    | _ => cases hSettled

end Shelves

end JsonShapes
