import JsonShapes.Proofs.Memoization.Running
import JsonShapes.Proofs.Promises

/-! # What a store holds

A property of representations that is promised whenever a schema is built is a property of everything
that a store holds, and so of everything that is found behind a handle. Nothing is asked of identifiers,
sites and keys here: whatever definition or representation was first under them has the property.
-/
namespace JsonShapes.Store
set_option autoImplicit false

variable {ρ : Type} {P : ρ → Prop}

structure All (P : ρ → Prop) (s : Store ρ) : Prop where
  values : ∀ d ∈ s.registry.definitions, ∀ r, d.value = some r → P r
  cached : ∀ key r, s.cache.get? key = some r → P r

theorem all_empty : (empty : Store ρ).All P where
  values _ h := by cases h
  cached _ _ h := by cases h

variable (P)

/-- Promises of what is built in stores that hold nothing without the property. -/
def building : Promises (StateM (Store ρ)) where
  Holds c Q := ∀ s, s.All P → (c.run s).2.All P ∧ Q (c.run s).1
  pure h _ hAll := ⟨hAll, h⟩
  bind hx hf s hAll := by
    obtain ⟨hAll', hResult⟩ := hx s hAll
    exact hf _ hResult _ hAll'

/-- Promises of what is returned by runs in such stores, if they end. -/
def running : Promises (StateT (Store ρ) Option) where
  Holds c Q := ∀ s, s.All P → ∀ a s', c.run s = some (a, s') → s'.All P ∧ Q a
  pure h s hAll a s' hRun := by
    cases hRun
    exact ⟨hAll, h⟩
  bind hx hf s hAll b s'' hRun := by
    obtain ⟨⟨a, s'⟩, hFirst, hRest⟩ := Option.bind_eq_some_iff.mp hRun
    obtain ⟨hAll', hResult⟩ := hx s hAll a s' hFirst
    exact hf a hResult s' hAll' b s'' hRest

variable {P}

/-! ## Building -/

theorem define_promise (link : Link) : (building P).Holds (define link) fun _ => True := by
  intro s hAll
  refine ⟨?_, trivial⟩
  constructor
  · intro d hd r hr
    rcases Registry.mem_define hd with hd | rfl
    · exact hAll.values d hd r hr
    · cases hr
  · exact hAll.cached

theorem recordMake_promise (key : Option SchemaKey) :
    (building P).Holds (recordMake key) fun _ => True := by
  intro s hAll
  exact ⟨⟨hAll.values, hAll.cached⟩, trivial⟩

theorem insert_promise (key : SchemaKey) {built : ρ} (hBuilt : P built) :
    (building P).Holds (insert key built) P := by
  intro s hAll
  have hCached : ∀ other r, (s.cache.insert key built).2.get? other = some r → P r := by
    intro other r hr
    rcases Cache.get?_insert_cases hr with hr | ⟨_, rfl⟩
    · exact hAll.cached other r hr
    · exact hBuilt
  exact ⟨⟨hAll.values, hCached⟩, hCached key _ (s.cache.get?_insert key built)⟩

theorem make_promise (key : Option SchemaKey) {read : StateM (Store ρ) ρ}
    (hRead : (building P).Holds read P) : (building P).Holds (make key read) P := by
  cases key with
  | none => exact (building P).bind (recordMake_promise none) fun _ _ => hRead
  | some k =>
    have hGet : (building P).Holds (get : StateM (Store ρ) (Store ρ)) (All P) :=
      fun s hAll => ⟨hAll, hAll⟩
    apply (building P).bind hGet
    intro s hAll
    cases hHit : s.cache.get? k with
    | some kept => exact (building P).pure (hAll.cached k kept hHit)
    | none =>
      apply (building P).bind (recordMake_promise (some k))
      intro _ _
      exact (building P).bind hRead fun built hBuilt => insert_promise k hBuilt

/-! ## Running -/

theorem settle_promise (handle : Nat) {r : ρ} (hr : P r) :
    (running P).Holds (modify (registryPart.modify (Registry.settle handle r))) fun _ => True := by
  intro s hAll _ s' hRun
  cases hRun
  refine ⟨?_, trivial⟩
  constructor
  · intro d hd r' hr'
    rcases Registry.mem_settle hd with hd | ⟨old, hOld, rfl⟩
    · exact hAll.values d hd r' hr'
    · rcases Option.or_eq_some_iff.mp hr' with hr' | ⟨_, hr'⟩
      · exact hAll.values old (List.mem_of_getElem? hOld) r' hr'
      · cases hr'
        exact hr
  · exact hAll.cached

theorem beginRun_promise (handle : Nat) :
    (running P).Holds (modify (registryPart.modify (Registry.beginRun handle))) fun _ => True := by
  intro s hAll _ s' hRun
  cases hRun
  exact ⟨⟨hAll.values, hAll.cached⟩, trivial⟩

theorem force_promise {build : String → StateT (Store ρ) Option ρ}
    (hBuild : ∀ target, (running P).Holds (build target) P) (handle : Nat) :
    (running P).Holds (Registry.force registryPart build handle) fun found =>
      ∀ r, found = some r → P r := by
  have hGet : (running P).Holds (get : StateT (Store ρ) Option (Store ρ)) (All P) := by
    intro s hAll _ _ hRun
    cases hRun
    exact ⟨hAll, hAll⟩
  apply (running P).bind hGet
  intro s hAll
  cases hFound : (registryPart.get s).definition? handle with
  | none =>
    apply (running P).pure
    intro r hr
    cases hr
  | some d =>
    cases hValue : d.value with
    | some v =>
      simp only [hValue]
      apply (running P).pure
      intro r hr
      cases hr
      exact hAll.values d (List.mem_of_getElem? hFound) v hValue
    | none =>
      simp only [hValue]
      apply (running P).bind (beginRun_promise handle)
      intro _ _
      apply (running P).bind (hBuild d.thunk)
      intro v hv
      apply (running P).bind (settle_promise handle hv)
      intro _ _
      apply (running P).pure
      intro r hr
      cases hr
      exact hv

variable {I : Interpretation Nat ρ} {definitions : Definitions}

theorem build_promise {schema : Schema} (h : (building P).Holds (schema.build I) P) :
    (running P).Holds (build I schema) P := by
  intro s hAll r s' hRun
  have hBuilt := h s hAll
  have hResult : (schema.build I).run s = (r, s') := Option.some.inj hRun
  rw [hResult] at hBuilt
  exact hBuilt

theorem resolve_promise (h : ∀ e ∈ definitions, (building P).Holds (e.2.build I) P) (handle : Nat) :
    (running P).Holds (resolve I definitions handle) P := by
  refine (running P).bind (force_promise ?_ handle) fun found hFound => ?_
  · intro target
    cases hTarget : definitions.get? target with
    | none =>
      intro s _ r s' hRun
      cases hRun
    | some schema => exact build_promise (h (target, schema) (Entries.mem_of_get? hTarget))
  · cases found with
    | none =>
      intro s _ r s' hRun
      cases hRun
    | some r => exact (running P).pure (hFound r rfl)

end JsonShapes.Store
