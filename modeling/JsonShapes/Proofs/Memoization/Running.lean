import JsonShapes.Proofs.Lockstep
import JsonShapes.Proofs.Memoization.Building

/-! # Running in a store

Following a handle gives the direct reading of the schema that its link names, built now or kept from
before. Runs in a store therefore go in lockstep with the direct evaluation, whatever the store has seen.
-/
namespace JsonShapes
set_option autoImplicit false

namespace Registry
variable {τ ρ : Type}

theorem getElem?_settle (r : Registry τ ρ) (handle : Nat) (v : ρ) (i : Nat) :
    (r.settle handle v).definitions[i]? = (r.definitions[i]?).map fun d =>
      if handle = i then { d with value := d.value.or (some v) } else d :=
  List.getElem?_modify ..

theorem places_settle (r : Registry τ ρ) (handle : Nat) (v : ρ) :
    (r.settle handle v).places = r.places := by
  apply List.ext_getElem?
  intro i
  rw [places, places, List.getElem?_map, List.getElem?_map, getElem?_settle, Option.map_map]
  apply congrArg (Option.map · _)
  funext d
  rw [Function.comp_apply]
  split <;> rfl

theorem mem_settle {r : Registry τ ρ} {handle : Nat} {v : ρ} {d : Definition τ ρ}
    (h : d ∈ (r.settle handle v).definitions) :
    d ∈ r.definitions ∨
      ∃ old, r.definition? handle = some old ∧ d = { old with value := old.value.or (some v) } := by
  obtain ⟨i, hi⟩ := List.mem_iff_getElem?.mp h
  rw [getElem?_settle] at hi
  obtain ⟨old, hOld, hNew⟩ := Option.map_eq_some_iff.mp hi
  split at hNew
  · rename_i hHandle
    rw [← hHandle] at hOld
    exact .inr ⟨old, hOld, hNew.symm⟩
  · exact .inl (hNew ▸ List.mem_of_getElem? hOld)

variable {σ : Type} {part : Part σ (Registry τ ρ)} {build : τ → StateT σ Option ρ} {handle : Nat}
variable {s : σ} {d : Definition τ ρ}

theorem force_kept {r : ρ} (hDefinition : (part.get s).definition? handle = some d)
    (hValue : d.value = some r) : (force part build handle).run s = some (some r, s) := by
  simp only [force, StateT.run_bind, StateT.run_get, pure_bind, hDefinition, hValue]
  rfl

theorem force_run (hDefinition : (part.get s).definition? handle = some d) (hValue : d.value = none) :
    (force part build handle).run s =
      ((build d.thunk).run (part.modify (beginRun handle) s)).map fun p =>
        (some p.1, part.modify (settle handle p.1) p.2) := by
  simp only [force, StateT.run_bind, StateT.run_get, pure_bind, hDefinition, hValue, StateT.run_modify]
  cases (build d.thunk).run (part.modify (beginRun handle) s) <;> rfl

end Registry

namespace Store
variable {ρ : Type} {I : Interpretation Nat ρ} {definitions : Definitions} {A : Assignment}
variable {s : Store ρ}

theorem definition_at_place (hSound : s.Sound I definitions A) {link : Link} (hKnows : s.Knows link)
    (hLink : link.target = A.target link.id link.site) :
    ∃ d, s.registry.definition? (s.place link) = some d ∧ d.thunk = link.target := by
  have hPlace : s.registry.places[s.place link]? = some (link.id, link.site) :=
    List.getElem?_idxOf hKnows
  rw [Registry.places, List.getElem?_map] at hPlace
  obtain ⟨d, hDefinition, hKey⟩ := Option.map_eq_some_iff.mp hPlace
  refine ⟨d, hDefinition, ?_⟩
  rw [hSound.thunks d (List.mem_of_getElem? hDefinition), hLink]
  exact congrArg₂ A.target (congrArg Prod.fst hKey) (congrArg Prod.snd hKey)

theorem beginRun_sound (hSound : s.Sound I definitions A) (handle : Nat) :
    (registryPart.modify (Registry.beginRun handle) s).Sound I definitions A ∧
      s.Extends (registryPart.modify (Registry.beginRun handle) s) :=
  hSound.transfer _ rfl hSound.cached

theorem settle_sound (hSound : s.Sound I definitions A) {handle : Nat} {d : Definition String ρ}
    {schema : Schema} {r : ρ} (hDefinition : s.registry.definition? handle = some d)
    (hFound : definitions.get? d.thunk = some schema) (hRead : s.Represents I schema r) :
    (registryPart.modify (Registry.settle handle r) s).Sound I definitions A ∧
      s.Extends (registryPart.modify (Registry.settle handle r) s) := by
  have hExtends : s.Extends (registryPart.modify (Registry.settle handle r) s) := by
    change s.registry.places <+: (s.registry.settle handle r).places
    exact (Registry.places_settle s.registry handle r) ▸ List.prefix_rfl
  have hMem : ∀ d' ∈ (s.registry.settle handle r).definitions,
      d' ∈ s.registry.definitions ∨ d' = { d with value := d.value.or (some r) } := by
    intro d' hd'
    rcases Registry.mem_settle hd' with hd' | ⟨old, hOld, hNew⟩
    · exact .inl hd'
    · have hSame : d = old := Option.some.inj (hDefinition.symm.trans hOld)
      exact .inr (hSame ▸ hNew)
  have hd := List.mem_of_getElem? hDefinition
  refine ⟨?_, hExtends⟩
  constructor
  · intro d' hd'
    rcases hMem d' hd' with hd' | rfl
    · exact hSound.thunks d' hd'
    · exact hSound.thunks d hd
  · intro d' hd' r' hr'
    rcases hMem d' hd' with hd' | rfl
    · obtain ⟨schema', hFound', hRead'⟩ := hSound.values d' hd' r' hr'
      exact ⟨schema', hFound', hRead'.mono hExtends⟩
    · rcases Option.or_eq_some_iff.mp hr' with hr' | ⟨_, hr'⟩
      · obtain ⟨schema', hFound', hRead'⟩ := hSound.values d hd r' hr'
        exact ⟨schema', hFound', hRead'.mono hExtends⟩
      · cases hr'
        exact ⟨schema, hFound, hRead.mono hExtends⟩
  · intro key r' hr'
    exact (hSound.cached key r' hr').mono hExtends

theorem resolve_run (handle : Nat) : (resolve I definitions handle).run s =
    ((Registry.force registryPart (fun target => match definitions.get? target with
      | some schema => build I schema
      | none => failure) handle).run s).bind fun p => p.1.map fun r => (r, p.2) := by
  simp only [resolve, StateT.run_bind]
  apply bind_congr
  intro p
  cases p.1 <;> rfl

theorem resolve_spec (hDefinitions : definitions.Follow A) (hSound : s.Sound I definitions A)
    {link : Link} (hKnows : s.Knows link) (hLink : link.target = A.target link.id link.site) :
    match definitions.get? link.target with
    | none => (resolve I definitions (s.place link)).run s = none
    | some schema => ∃ r s', (resolve I definitions (s.place link)).run s = some (r, s') ∧
        s'.Sound I definitions A ∧ s.Extends s' ∧ s'.Represents I schema r := by
  obtain ⟨d, hDefinition, hThunk⟩ := definition_at_place hSound hKnows hLink
  rw [resolve_run]
  cases hValue : d.value with
  | some r =>
    obtain ⟨schema, hFound, hRead⟩ := hSound.values d (List.mem_of_getElem? hDefinition) r hValue
    rw [hThunk] at hFound
    rw [hFound, Registry.force_kept hDefinition hValue]
    exact ⟨r, s, rfl, hSound, Extends.refl s, hRead⟩
  | none =>
    rw [Registry.force_run hDefinition hValue, hThunk]
    cases hFound : definitions.get? link.target with
    | none => rfl
    | some schema =>
      obtain ⟨hBegun, hExtends⟩ := beginRun_sound hSound (s.place link)
      have hSchema : schema.Follows A := hDefinitions _ (Entries.mem_of_get? hFound)
      obtain ⟨hBuilt, hExtends', hRead⟩ := build_keeps I definitions schema hSchema _ hBegun trivial
      -- The thunk may have defined other links, so the definition is looked up once more.
      have hKnows' := (hExtends.trans hExtends').knows hKnows
      obtain ⟨d', hDefinition', hThunk'⟩ := definition_at_place hBuilt hKnows' hLink
      rw [(hExtends.trans hExtends').place_eq hKnows] at hDefinition'
      obtain ⟨hSettled, hExtends''⟩ := settle_sound hBuilt hDefinition' (hThunk' ▸ hFound) hRead
      exact ⟨_, _, rfl, hSettled, (hExtends.trans hExtends').trans hExtends'', hRead.mono hExtends''⟩

/-- A run from `s` ended as the direct evaluation did, in a sound store that extends `s`. -/
def Answers {α : Type} (I : Interpretation Nat ρ) (definitions : Definitions) (A : Assignment)
    (s : Store ρ) (result : Option (α × Store ρ)) : Option α → Prop
  | none => result = none
  | some a => ∃ s', result = some (a, s') ∧ s'.Sound I definitions A ∧ s.Extends s'

theorem Answers.before {α : Type} {s' : Store ρ} {result : Option (α × Store ρ)} {o : Option α}
    (hExtends : s.Extends s') (h : s'.Answers I definitions A result o) :
    s.Answers I definitions A result o := by
  cases o with
  | none => exact h
  | some a =>
    obtain ⟨s'', hResult, hSound, hExtends'⟩ := h
    exact ⟨s'', hResult, hSound, hExtends.trans hExtends'⟩

theorem Answers.result_eq {α : Type} {result : Option (α × Store ρ)} {o : Option α}
    (h : s.Answers I definitions A result o) : result.map Prod.fst = o := by
  cases o with
  | none => exact congrArg (Option.map _) h
  | some a =>
    obtain ⟨s', hResult, _⟩ := h
    exact congrArg (Option.map _) hResult

/-- Runs that answer as the direct evaluation does from every sound store after `s₀`. -/
def lockstep (I : Interpretation Nat ρ) (definitions : Definitions) (A : Assignment) (s₀ : Store ρ) :
    Lockstep (StateT (Store ρ) Option) Option where
  Rel c o := ∀ s, s.Sound I definitions A → s₀.Extends s → s.Answers I definitions A (c.run s) o
  pure a s hSound _ := ⟨s, rfl, hSound, Extends.refl s⟩
  bind {α β x y f g} hxy hfg := by
    intro s hSound hExtends
    have h := hxy s hSound hExtends
    rw [StateT.run_bind]
    cases y with
    | none =>
      have hRun : x.run s = none := h
      rw [hRun]
      rfl
    | some a =>
      obtain ⟨s', hRun, hSound', hExtends'⟩ := h
      rw [hRun]
      exact (hfg a s' hSound' (hExtends.trans hExtends')).before hExtends'

variable {out : Type}
variable {read : (Link → Value → Option out) → Interpretation Link (Value → Option out)}
variable {follow : Nat → Nat → Value → StateT (Store ρ) Option out}
variable {run : Nat → ρ → Value → StateT (Store ρ) Option out}

/-- Following handles goes in lockstep with following links, as soon as running a shape does when its
references do. The induction is on the bound; each reference is followed from the store in which its
schema has just been found, so the hypothesis on `run` is needed for every store. -/
theorem follow_lockstep (hDefinitions : definitions.Follow A)
    (hZero : ∀ handle v, follow 0 handle v = failure)
    (hSucc : ∀ n handle v, follow (n + 1) handle v =
      resolve I definitions handle >>= fun r => run n r v)
    (hRun : ∀ n (s₀ : Store ρ) (schema : Schema),
      (∀ link ∈ schema.links, (lockstep I definitions A s₀).Pointwise (follow n (s₀.place link))
        (definitions.follow read n link)) →
      (lockstep I definitions A s₀).Pointwise (run n (schema.unfold (I.comap s₀.place)))
        (schema.unfold (read (definitions.follow read n))))
    (n : Nat) (s₀ : Store ρ) {link : Link} (hKnows : s₀.Knows link)
    (hLink : link.target = A.target link.id link.site) :
    (lockstep I definitions A s₀).Pointwise (follow n (s₀.place link))
      (definitions.follow read n link) := by
  induction n generalizing s₀ link with
  | zero =>
    intro v s _ _
    rw [hZero]
    rfl
  | succ n ih =>
    intro v s hSound hExtends
    have hResolve := resolve_spec hDefinitions hSound (hExtends.knows hKnows) hLink
    rw [hSucc, StateT.run_bind, ← hExtends.place_eq hKnows, Definitions.follow]
    cases hFound : definitions.get? link.target with
    | none =>
      rw [hFound] at hResolve
      rw [hResolve]
      rfl
    | some schema =>
      rw [hFound] at hResolve
      obtain ⟨r, s', hResult, hSound', hExtends', hRead⟩ := hResolve
      have hSchema := hDefinitions _ (Entries.mem_of_get? hFound)
      have hInner := hRun n s' schema fun inner hInner =>
        ih s' (hRead.knows inner hInner) (hSchema.links inner hInner)
      rw [hRead.unfold_eq] at hInner
      rw [hResult]
      exact (hInner v s' hSound' (Extends.refl s')).before hExtends'

end Store

end JsonShapes
