import JsonShapes.Proofs.Histories.Registries
import JsonShapes.Proofs.Shelving.Settled

/-! # Codecs that are shelved once

Both halves of a recursive codec lead to one definition. However they are used, decoding and encoding in any
order, the thunk of the definition runs once at the most.
-/
namespace JsonShapes
set_option autoImplicit false

namespace Registry
variable {τ ρ : Type} {r r' : Registry τ ρ}

/-- No thunk has run twice, and what has run has its value. -/
structure RunsOnce (r : Registry τ ρ) : Prop where
  once : r.runs.Nodup
  settled : ∀ handle ∈ r.runs, ∃ v, r.settled? handle = some v

/-- Nothing has been run and nothing settled. -/
structure Rests (r r' : Registry τ ρ) : Prop where
  runs : r'.runs = r.runs
  settled : ∀ handle, r'.settled? handle = r.settled? handle
  known : ∀ {handle d}, r.definition? handle = some d → ∃ d', r'.definition? handle = some d'

theorem Rests.refl (r : Registry τ ρ) : r.Rests r := ⟨rfl, fun _ => rfl, fun h => ⟨_, h⟩⟩

theorem Rests.trans {r'' : Registry τ ρ} (h : r.Rests r') (h' : r'.Rests r'') : r.Rests r'' where
  runs := h'.runs.trans h.runs
  settled handle := (h'.settled handle).trans (h.settled handle)
  known hDefinition := by
    obtain ⟨_, hNext⟩ := h.known hDefinition
    exact h'.known hNext

theorem rests_define (r : Registry τ ρ) (id : String) (site : Nat) (thunk : τ) :
    r.Rests (r.define id site thunk).2 where
  runs := r.runs_define id site thunk
  settled := r.settled?_define id site thunk
  known := (Grows.define (P := fun _ => True) id site thunk).definition_kept

theorem RunsOnce.rests (h : r.RunsOnce) (hRests : r.Rests r') : r'.RunsOnce where
  once := by
    rw [hRests.runs]
    exact h.once
  settled handle hRun := by
    rw [hRests.runs] at hRun
    rw [hRests.settled]
    exact h.settled handle hRun

/-- A thunk that begins has not run yet, as its definition would have its value. -/
theorem RunsOnce.run (h : r.RunsOnce) {handle : Nat} {d : Definition τ ρ}
    (hDefinition : r.definition? handle = some d) (hValue : d.value = none)
    (hRests : (r.beginRun handle).Rests r') (v : ρ) : (r'.settle handle v).RunsOnce := by
  have hRuns : (r'.settle handle v).runs = r.runs ++ [handle] := hRests.runs
  have hUnsettled : r.settled? handle = none := (settled?_of_definition hDefinition).trans hValue
  constructor
  · rw [hRuns]
    refine List.nodup_append.mpr ⟨h.once, List.pairwise_singleton _ _, fun other hRun other' hOther hSame => ?_⟩
    cases List.mem_singleton.mp hOther
    subst hSame
    obtain ⟨_, hSettled⟩ := h.settled other hRun
    cases hUnsettled.symm.trans hSettled
  · intro other hRun
    rw [hRuns] at hRun
    rcases List.mem_append.mp hRun with hRun | hNow
    · obtain ⟨w, hSettled⟩ := h.settled other hRun
      exact ⟨w, (Grows.settle (P := fun _ => True) trivial).kept ((hRests.settled other).trans hSettled)⟩
    · cases List.mem_singleton.mp hNow
      have hDefinition : (r.beginRun handle).definition? handle = some d := hDefinition
      obtain ⟨d', hDefinition'⟩ := hRests.known hDefinition
      rw [settled?_settle, hDefinition', Option.bind_some, if_pos rfl]
      cases d'.value with
      | some w => exact ⟨w, rfl⟩
      | none => exact ⟨v, rfl⟩

end Registry

namespace Shelves
variable {s s' : Shelves} {Kept : Shelves → Prop}

/-- Nothing is done with the codecs since `r` but defining. -/
def idle (r : Registry String (Codec Handle)) : Lockstep (StateT Shelves Option) (StateT Shelves Option) :=
  keeping (fun s => r.Rests s.codecs) _

theorem define_idle (r : Registry String (Codec Handle)) (link : ShelfLink) :
    (idle r).Rel (define link) (define link) := by
  intro s h s' hRun hRests
  unfold define at hRun
  split at hRun
  · cases hRun
    exact hRests
  · cases hRun
    exact hRests
  · cases hRun
    exact hRests
  · cases hRun
    exact hRests.trans (Registry.rests_define ..)

def OnceOnly (s : Shelves) : Prop := s.codecs.RunsOnce

/-- Computations that run no thunk of a codec twice. Each is run beside itself. -/
def onceKept : Lockstep (StateT Shelves Option) (StateT Shelves Option) := keeping OnceOnly _

theorem shelving_keeps {α : Type} {x : StateT Shelves Option α}
    (h : ∀ r, (idle r).Rel x x) : onceKept.Rel x x :=
  fun hRun hs => hs.rests (h _ hRun (.refl _))

/-- The codecs are not changed by what is found on another shelf, but for what is shelved with it. -/
theorem find_elsewhere {β ρ : Type} {part : Part Shelves (Registry String ρ)} {blueprints : Entries β}
    {shelve : β → StateT Shelves Option ρ} (hPart : ∀ f s, (part.modify f s).codecs = s.codecs)
    (hShelve : ∀ blueprint r, (idle r).Rel (shelve blueprint) (shelve blueprint))
    (index : Nat) :
    onceKept.Rel (find part blueprints shelve index) (find part blueprints shelve index) := by
  intro s r s' hRun hs
  obtain ⟨_, _, ⟨_, rfl⟩ | ⟨_, blueprint, t, _, hBuild, rfl⟩⟩ := find_cases hRun
  · exact hs
  · have hBuilt := hShelve blueprint _ hBuild (.refl _)
    rw [hPart] at hBuilt
    rw [OnceOnly, hPart]
    exact hs.rests hBuilt

theorem codec_keeps (b : Blueprints) (index : Nat) : onceKept.Rel (codec b index) (codec b index) := by
  intro s c s' hRun hs
  obtain ⟨_, hDefinition, ⟨_, rfl⟩ | ⟨hValue, blueprint, t, _, hBuild, rfl⟩⟩ := find_cases hRun
  · exact hs
  · have hBuilt := blueprint.mapRefs_lockstep _ (define_idle _) hBuild (.refl _)
    exact hs.run hDefinition hValue hBuilt c

theorem resolver_keeps (b : Blueprints) : Resolver.InLockstep onceKept (resolver b) (resolver b) where
  stop h := nomatch h
  guard h := by
    obtain ⟨shelf, index⟩ := h
    cases shelf with
    | guards => exact find_elsewhere (fun _ _ => rfl) (fun g r => g.mapRefs_lockstep _ (define_idle r)) index
    | _ =>
      intro _ _ _ hRun
      cases hRun
  decoder h := by
    obtain ⟨shelf, index⟩ := h
    cases shelf with
    | decoders => exact find_elsewhere (fun _ _ => rfl) (fun d r => d.mapRefs_lockstep _ (define_idle r)) index
    | codecs =>
      exact onceKept.bind (y := codec b index) (g := fun c => pure c.decoder) (codec_keeps b index)
        fun _ => onceKept.pure _
    | _ =>
      intro _ _ _ hRun
      cases hRun
  encoder h := by
    obtain ⟨shelf, index⟩ := h
    cases shelf with
    | encoders => exact find_elsewhere (fun _ _ => rfl) (fun e r => e.mapRefs_lockstep _ (define_idle r)) index
    | codecs =>
      exact onceKept.bind (y := codec b index) (g := fun c => pure c.encoder) (codec_keeps b index)
        fun _ => onceKept.pure _
    | _ =>
      intro _ _ _ hRun
      cases hRun

/-- The shelves that building, testing, decoding and encoding lead to from the empty ones. -/
inductive Reachable (b : Blueprints) : Shelves → Prop
  | empty : Reachable b empty
  | guard {s s' : Shelves} {blueprint : Guard ShelfLink} {g : Guard Handle} : Reachable b s →
    (blueprint.mapRefs define).run s = some (g, s') → Reachable b s'
  | decoder {s s' : Shelves} {blueprint : Decoder ShelfLink} {d : Decoder Handle} : Reachable b s →
    (blueprint.mapRefs define).run s = some (d, s') → Reachable b s'
  | encoder {s s' : Shelves} {blueprint : Encoder ShelfLink} {e : Encoder Handle} : Reachable b s →
    (blueprint.mapRefs define).run s = some (e, s') → Reachable b s'
  | codec {s s' : Shelves} {blueprint : Codec ShelfLink} {c : Codec Handle} : Reachable b s →
    (blueprint.mapRefs define).run s = some (c, s') → Reachable b s'
  | test {s s' : Shelves} {bound : Nat} {g : Guard Handle} {v : Value} {answer : Bool} : Reachable b s →
    ((resolver b).test bound g v).run s = some (answer, s') → Reachable b s'
  | decode {s s' : Shelves} {bound : Nat} {d : Decoder Handle} {v : Value} {r : Decoded Value} : Reachable b s →
    ((resolver b).decode bound d v).run s = some (r, s') → Reachable b s'
  | encode {s s' : Shelves} {bound : Nat} {e : Encoder Handle} {v w : Value} : Reachable b s →
    ((resolver b).encode bound e v).run s = some (w, s') → Reachable b s'

theorem Reachable.onceOnly {b : Blueprints} (h : Reachable b s) : s.OnceOnly := by
  have hResolver := resolver_keeps b
  induction h with
  | empty => exact ⟨.nil, List.forall_mem_nil _⟩
  | guard _ hRun ih => exact shelving_keeps (fun r => Guard.mapRefs_lockstep _ (define_idle r) _) hRun ih
  | decoder _ hRun ih => exact shelving_keeps (fun r => Decoder.mapRefs_lockstep _ (define_idle r) _) hRun ih
  | encoder _ hRun ih => exact shelving_keeps (fun r => Encoder.mapRefs_lockstep _ (define_idle r) _) hRun ih
  | codec _ hRun ih => exact shelving_keeps (fun r => Codec.mapRefs_lockstep _ (define_idle r) _) hRun ih
  | test _ hRun ih => exact hResolver.test _ _ _ hRun ih
  | decode _ hRun ih => exact hResolver.decode _ _ _ hRun ih
  | encode _ hRun ih => exact hResolver.encode _ _ _ hRun ih

/-- Both halves of a recursive codec get the same handle. -/
theorem lazy_shelved {link : ShelfLink} {c : Codec Handle}
    (hRun : ((Codec.lazy link.id link).mapRefs define).run s = some (c, s')) :
    c = .lazy link.id (s'.place link) := (mapRefs_spec hRun).2

end Shelves

/-- Whatever is done with a registry and with shelved codecs, in whatever order. -/
theorem definitions_run_once :
    (∀ {τ ρ α : Type} (bodies : τ → Activity τ ρ ρ) (bound : Nat) (activity : Activity τ ρ α) (result : α)
      (s : Record τ ρ), (activity.perform (Activity.resolve bodies bound)).run .start = some (result, s) →
      s.Lawful) ∧
    ∀ (b : Blueprints) (s : Shelves), s.Reachable b → s.codecs.RunsOnce ∧
      ∀ (link : ShelfLink) (c : Codec Handle) (s' : Shelves),
        ((Codec.lazy link.id link).mapRefs Shelves.define).run s = some (c, s') →
        c = .lazy link.id (s'.place link) := by
  constructor
  · intro τ ρ α bodies bound activity result s hRun
    exact Activity.perform_lawful bodies bound activity hRun
  · intro b s hReachable
    exact ⟨hReachable.onceOnly, fun _ _ _ hRun => Shelves.lazy_shelved hRun⟩

/-! ## Lists

The thunk of a list defines the list again, and the items, whose definition it forces.
-/
namespace Lists

def bodies : Nat → Activity Nat Nat Nat
  | 0 => .define 0 "List" 0 0 fun _ => .define 0 "Item" 1 1 fun item => .force item fun n => .done (n + 1)
  | _ => .done 5

/-- Defines a list, defines it again on a clone with another thunk, and forces what it has been given both times. -/
def activity : Activity Nat Nat (Nat × Nat) :=
  .define 0 "List" 0 0 fun list => .clone 0 fun clone => .define clone "List" 0 7 fun again =>
    .force list fun n => .force again fun m => .done (n, m)

def link : ShelfLink := ⟨.codecs, "List", 0, "List"⟩

def blueprints : Blueprints :=
  ⟨[], [], [], [("List", .object [("rest", .nullable (.lazy "List" link))])]⟩

def body : Codec Handle := .object [("rest", .nullable (.lazy "List" ⟨.codecs, 0⟩))]

def shelved : Shelves := { Shelves.empty with codecs := ⟨[⟨"List", 0, "List", none⟩], []⟩ }

def used : Shelves := { Shelves.empty with codecs := ⟨[⟨"List", 0, "List", some body⟩], [0]⟩ }

def input : Value := .obj [("rest", .obj [("rest", .null)])]

theorem used_reachable : used.Reachable blueprints := by
  have hShelve : ((Codec.lazy "List" link).mapRefs Shelves.define).run .empty =
      some (.lazy "List" ⟨.codecs, 0⟩, shelved) := rfl
  have hEncode : ((Shelves.resolver blueprints).encode 2 (.lazy ⟨.codecs, 0⟩) input).run shelved =
      some (input, used) := rfl
  have hDecode : ((Shelves.resolver blueprints).decode 2 (.lazy "List" ⟨.codecs, 0⟩) input).run used =
      some (.ok input, used) := rfl
  exact ((Shelves.Reachable.empty.codec hShelve).encode hEncode).decode hDecode

theorem list_runs_once :
    (∃ s, (activity.perform (Activity.resolve bodies 2)).run .start = some ((6, 6), s) ∧
      s.registry.runs = [0, 1] ∧ s.Lawful) ∧
    used.Reachable blueprints ∧ used.codecs.runs = [0] ∧ used.codecs.RunsOnce := by
  have hPerformed : ((activity.perform (Activity.resolve bodies 2)).run .start).map
      (fun p => (p.1, p.2.registry.runs)) = some ((6, 6), [0, 1]) := by decide +kernel
  obtain ⟨⟨_, s⟩, hRun, hResult⟩ := Option.map_eq_some_iff.mp hPerformed
  obtain ⟨rfl, hRuns⟩ := Prod.mk.inj hResult
  constructor
  · exact ⟨s, hRun, hRuns, definitions_run_once.1 bodies 2 activity (6, 6) s hRun⟩
  · exact ⟨used_reachable, rfl, (definitions_run_once.2 blueprints used used_reachable).1⟩

end Lists

end JsonShapes
