import JsonShapes.Proofs.Growth
import JsonShapes.Shelves

/-! # Shelves grow

Whatever is done with shelves, a handle stays what it is and a definition that has been settled keeps its
value. What is put on a shelf besides is known to satisfy whatever it had to satisfy to be put there.
-/
namespace JsonShapes
set_option autoImplicit false

/-- What may be put on each shelf. -/
structure Contents where
  guards : Guard Handle → Prop
  decoders : Decoder Handle → Prop
  encoders : Encoder Handle → Prop
  codecs : Codec Handle → Prop

def Contents.none : Contents := ⟨fun _ => False, fun _ => False, fun _ => False, fun _ => False⟩

/-- Contents of which only the codecs are of interest. -/
def Contents.ofCodecs (Q : Codec Handle → Prop) : Contents := ⟨fun _ => True, fun _ => True, fun _ => True, Q⟩

namespace Shelves

structure Grows (P : Contents) (s s' : Shelves) : Prop where
  guards : s.guards.Grows P.guards s'.guards
  decoders : s.decoders.Grows P.decoders s'.decoders
  encoders : s.encoders.Grows P.encoders s'.encoders
  codecs : s.codecs.Grows P.codecs s'.codecs

namespace Grows
variable {P : Contents} {s s' s'' : Shelves}

theorem refl (s : Shelves) : s.Grows P s := ⟨.refl _, .refl _, .refl _, .refl _⟩

theorem trans (h : s.Grows P s') (h' : s'.Grows P s'') : s.Grows P s'' :=
  ⟨h.guards.trans h'.guards, h.decoders.trans h'.decoders, h.encoders.trans h'.encoders,
    h.codecs.trans h'.codecs⟩

theorem of_none (h : s.Grows .none s') : s.Grows P s' :=
  ⟨h.guards.mono nofun, h.decoders.mono nofun, h.encoders.mono nofun, h.codecs.mono nofun⟩

end Grows

/-- A part that is one shelf, of which `select` says what may be put there. -/
structure IsShelf {ρ : Type} (part : Part Shelves (Registry String ρ)) (select : Contents → ρ → Prop) :
    Prop where
  none : ∀ {r}, ¬select .none r
  get_modify : ∀ f s, part.get (part.modify f s) = f (part.get s)
  read : ∀ {P : Contents} {s s' : Shelves}, s.Grows P s' → (part.get s).Grows (select P) (part.get s')
  write : ∀ {P : Contents} {f s}, (part.get s).Grows (select P) (f (part.get s)) →
    s.Grows P (part.modify f s)

theorem guardPart_isShelf : IsShelf guardPart Contents.guards where
  none h := h
  get_modify _ _ := rfl
  read h := h.guards
  write h := ⟨h, .refl _, .refl _, .refl _⟩

theorem decoderPart_isShelf : IsShelf decoderPart Contents.decoders where
  none h := h
  get_modify _ _ := rfl
  read h := h.decoders
  write h := ⟨.refl _, h, .refl _, .refl _⟩

theorem encoderPart_isShelf : IsShelf encoderPart Contents.encoders where
  none h := h
  get_modify _ _ := rfl
  read h := h.encoders
  write h := ⟨.refl _, .refl _, h, .refl _⟩

theorem codecPart_isShelf : IsShelf codecPart Contents.codecs where
  none h := h
  get_modify _ _ := rfl
  read h := h.codecs
  write h := ⟨.refl _, .refl _, .refl _, h⟩

/-! ## Finding -/

section
variable {β ρ : Type} {part : Part Shelves (Registry String ρ)} {select : Contents → ρ → Prop}
variable {blueprints : Entries β} {shelve : β → StateT Shelves Option ρ} {index : Nat} {r : ρ}
variable {P : Contents} {s s' : Shelves}

theorem find_run : (find part blueprints shelve index).run s =
    ((Registry.force part (fun target => match blueprints.get? target with
      | some blueprint => shelve blueprint
      | none => failure) index).run s).bind fun p => p.1.map fun r => (r, p.2) := by
  simp only [find, StateT.run_bind]
  apply bind_congr
  intro p
  cases p.1 <;> rfl

theorem find_settled (h : (part.get s).settled? index = some r) :
    (find part blueprints shelve index).run s = some (r, s) := by
  obtain ⟨d, hDefinition, hValue⟩ := Option.bind_eq_some_iff.mp h
  rw [find_run, Registry.force_kept hDefinition hValue]
  rfl

/-- What is found has its value already, or is shelved now and settled. -/
theorem find_cases (h : (find part blueprints shelve index).run s = some (r, s')) :
    ∃ d, (part.get s).definition? index = some d ∧ (d.value = some r ∧ s' = s ∨
      d.value = none ∧ ∃ blueprint t, blueprints.get? d.thunk = some blueprint ∧
        (shelve blueprint).run (part.modify (Registry.beginRun index) s) = some (r, t) ∧
        s' = part.modify (Registry.settle index r) t) := by
  rw [find_run] at h
  obtain ⟨⟨found, s''⟩, hForce, h⟩ := Option.bind_eq_some_iff.mp h
  obtain ⟨_, rfl, h⟩ := Option.map_eq_some_iff.mp h
  cases h
  obtain ⟨d, hDefinition, hKept | ⟨hValue, t, hBuild, hEnd⟩⟩ := Registry.force_cases hForce
  · exact ⟨d, hDefinition, .inl hKept⟩
  · cases hFound : blueprints.get? d.thunk with
    | none =>
      rw [hFound] at hBuild
      cases hBuild
    | some blueprint =>
      rw [hFound] at hBuild
      exact ⟨d, hDefinition, .inr ⟨hValue, blueprint, t, hFound, hBuild, hEnd⟩⟩

/-- What is found is kept. Building a blueprint settles nothing, so the definition that is looked for is
still open when its value has been built. -/
theorem find_spec (hPart : IsShelf part select)
    (hShelve : ∀ e ∈ blueprints, ∀ {s r s'}, (shelve e.2).run s = some (r, s') →
      s.Grows .none s' ∧ select P r)
    (h : (find part blueprints shelve index).run s = some (r, s')) :
    s.Grows P s' ∧ (part.get s').settled? index = some r := by
  obtain ⟨d, hDefinition, ⟨hValue, rfl⟩ | ⟨hValue, blueprint, t, hFound, hBuild, rfl⟩⟩ := find_cases h
  · exact ⟨.refl _, (Registry.settled?_of_definition hDefinition).trans hValue⟩
  · obtain ⟨hBuilt, hr⟩ := hShelve _ (Entries.mem_of_get? hFound) hBuild
    have hBegun : s.Grows .none (part.modify (Registry.beginRun index) s) := hPart.write (.beginRun index)
    refine ⟨(hBegun.trans hBuilt).of_none.trans (hPart.write (.settle hr)), ?_⟩
    rw [hPart.get_modify]
    exact Registry.settled?_settle_open ((hPart.read (hBegun.trans hBuilt)).mono fun _ => hPart.none) hDefinition hValue

end

end Shelves

end JsonShapes
