import JsonShapes.Proofs.Memoization.Placement

/-! # Building in a store

Building a schema adds definitions and cache entries and gives the direct reading of the schema, whatever
the store has held before. The cache is looked at before a schema is read and again after, and reading
may have filled it in between; either way what it holds is read from the schema of the key.
-/
namespace JsonShapes.Store
set_option autoImplicit false

variable {ρ α β : Type}

/-- From a sound store with `Pre` the computation leads to a sound store that extends it, with `Post`. -/
def Keeps (I : Interpretation Nat ρ) (definitions : Definitions) (A : Assignment)
    (Pre : Store ρ → Prop) (c : StateM (Store ρ) α) (Post : Store ρ → α → Prop) : Prop :=
  ∀ s, s.Sound I definitions A → Pre s → (c.run s).2.Sound I definitions A ∧
    s.Extends (c.run s).2 ∧ Post (c.run s).2 (c.run s).1

variable {I : Interpretation Nat ρ} {definitions : Definitions} {A : Assignment}
variable {Pre : Store ρ → Prop} {c : StateM (Store ρ) α} {f : α → StateM (Store ρ) β}

theorem Keeps.pure {Post : Store ρ → α → Prop} {a : α} (h : ∀ s, Pre s → Post s a) :
    Keeps I definitions A Pre (pure a) Post :=
  fun s hSound hPre => ⟨hSound, Extends.refl s, h s hPre⟩

theorem Keeps.bind {Mid : Store ρ → α → Prop} {Post : Store ρ → β → Prop}
    (hc : Keeps I definitions A Pre c Mid)
    (hf : ∀ a, Keeps I definitions A (Mid · a) (f a) Post) :
    Keeps I definitions A Pre (c >>= f) Post := by
  intro s hSound hPre
  obtain ⟨hSound', hExtends, hMid⟩ := hc s hSound hPre
  obtain ⟨hSound'', hExtends', hPost⟩ := hf _ _ hSound' hMid
  exact ⟨hSound'', hExtends.trans hExtends', hPost⟩

theorem Keeps.frame (Frame : Store ρ → Prop) {Post : Store ρ → α → Prop}
    (hFrame : ∀ {s s'}, s.Extends s' → Frame s → Frame s') (hc : Keeps I definitions A Pre c Post) :
    Keeps I definitions A (fun s => Pre s ∧ Frame s) c fun s a => Post s a ∧ Frame s := by
  intro s hSound hPre
  obtain ⟨hSound', hExtends, hPost⟩ := hc s hSound hPre.1
  exact ⟨hSound', hExtends, hPost, hFrame hExtends hPre.2⟩

theorem Keeps.weaken {Pre' : Store ρ → Prop} {Post : Store ρ → α → Prop}
    (hPre : ∀ s, Pre' s → Pre s) (hc : Keeps I definitions A Pre c Post) :
    Keeps I definitions A Pre' c Post :=
  fun s hSound h => hc s hSound (hPre s h)

theorem Keeps.imp {Post Post' : Store ρ → α → Prop} (hPost : ∀ s a, Post s a → Post' s a)
    (hc : Keeps I definitions A Pre c Post) : Keeps I definitions A Pre c Post' := by
  intro s hSound hPre
  obtain ⟨hSound', hExtends, h⟩ := hc s hSound hPre
  exact ⟨hSound', hExtends, hPost _ _ h⟩

theorem Keeps.get {f : Store ρ → StateM (Store ρ) β} {Post : Store ρ → β → Prop}
    (h : ∀ s₀, s₀.Sound I definitions A →
      Keeps I definitions A (fun s => Pre s ∧ s = s₀) (f s₀) Post) :
    Keeps I definitions A Pre (get >>= f) Post :=
  fun s hSound hPre => h s hSound s hSound ⟨hPre, rfl⟩

/-- A second step after a first one whose result stays as good as it was. -/
theorem Keeps.andThen {Mid : Store ρ → α → Prop} {Next : Store ρ → β → Prop} {γ : Type}
    {Post : Store ρ → γ → Prop} {d : StateM (Store ρ) β} {g : α → β → γ}
    (hc : Keeps I definitions A (fun _ => True) c Mid)
    (hMid : ∀ {s s'} a, s.Extends s' → Mid s a → Mid s' a)
    (hd : Keeps I definitions A (fun _ => True) d Next)
    (hPost : ∀ s a b, Mid s a → Next s b → Post s (g a b)) :
    Keeps I definitions A (fun _ => True) (do let a ← c; let b ← d; return g a b) Post := by
  apply hc.bind
  intro a
  have hFramed := (hd.frame (Mid · a) (hMid a)).weaken fun s hs => ⟨trivial, hs⟩
  exact hFramed.bind fun b => .pure fun s hs => hPost s a b hs.2 hs.1

end JsonShapes.Store

namespace JsonShapes.Registry
variable {τ ρ : Type}

theorem mem_define {r : Registry τ ρ} {id : String} {site : Nat} {thunk : τ} {d : Definition τ ρ}
    (h : d ∈ (r.define id site thunk).2.definitions) :
    d ∈ r.definitions ∨ d = ⟨id, site, thunk, none⟩ := by
  unfold define at h
  split at h
  · exact .inl h
  · rcases List.mem_append.mp h with h | h
    · exact .inl h
    · exact .inr (List.mem_singleton.mp h)

end JsonShapes.Registry

namespace JsonShapes.Cache
variable {ρ : Type}

theorem get?_insert (c : Cache ρ) (key : SchemaKey) (built : ρ) :
    (c.insert key built).2.get? key = some (c.insert key built).1 := by
  unfold insert
  split
  · assumption
  · rename_i hMiss
    rw [get?] at hMiss
    rw [get?, List.lookup_append, hMiss]
    simp

theorem get?_insert_cases {c : Cache ρ} {key other : SchemaKey} {built r : ρ}
    (h : (c.insert key built).2.get? other = some r) :
    c.get? other = some r ∨ other = key ∧ r = built := by
  unfold insert at h
  split at h
  · exact .inl h
  · rw [get?, List.lookup_append, Option.or_eq_some_iff] at h
    rcases h with h | ⟨_, h⟩
    · exact .inl h
    · by_cases hKey : other = key
      · refine .inr ⟨hKey, ?_⟩
        simpa [List.lookup_cons, hKey, eq_comm] using h
      · simp [List.lookup_cons, beq_false_of_ne hKey] at h

end JsonShapes.Cache

namespace JsonShapes.Store

variable {ρ : Type} {I : Interpretation Nat ρ} {definitions : Definitions} {A : Assignment}

theorem define_keeps {link : Link} (hLink : link.target = A.target link.id link.site) :
    Keeps I definitions A (fun _ => True) (define link)
      fun s handle => s.Knows link ∧ s.place link = handle := by
  intro s hSound _
  obtain ⟨hPlace, hExtends, hKnows⟩ := s.registry.define_spec link.id link.site link.target
  have hExtends : s.Extends ((define link).run s).2 := hExtends
  refine ⟨?_, hExtends, hKnows, hPlace.symm⟩
  constructor
  · intro d hd
    rcases Registry.mem_define hd with hd | rfl
    · exact hSound.thunks d hd
    · exact hLink
  · intro d hd r hr
    rcases Registry.mem_define hd with hd | rfl
    · obtain ⟨schema, hFound, hRepresents⟩ := hSound.values d hd r hr
      exact ⟨schema, hFound, hRepresents.mono hExtends⟩
    · cases hr
  · intro key r hr
    exact (hSound.cached key r hr).mono hExtends

/-- Only the definitions matter to a registry, and only what is found to a cache. -/
theorem Sound.transfer {s : Store ρ} (h : s.Sound I definitions A) (s' : Store ρ)
    (hDefinitions : s'.registry.definitions = s.registry.definitions)
    (hCached : ∀ key r, s'.cache.get? key = some r → s.Represents I (A.body key) r) :
    s'.Sound I definitions A ∧ s.Extends s' := by
  have hPlaces : s.registry.places = s'.registry.places := by
    unfold Registry.places
    rw [hDefinitions]
  have hExtends : s.Extends s' := by
    unfold Extends
    exact hPlaces ▸ List.prefix_rfl
  refine ⟨?_, hExtends⟩
  constructor
  · intro d hd
    exact h.thunks d (hDefinitions ▸ hd)
  · intro d hd r hr
    obtain ⟨schema, hFound, hRepresents⟩ := h.values d (hDefinitions ▸ hd) r hr
    exact ⟨schema, hFound, hRepresents.mono hExtends⟩
  · intro key r hr
    exact (hCached key r hr).mono hExtends

theorem recordMake_keeps (key : Option SchemaKey) :
    Keeps I definitions A (fun _ => True) (recordMake key) fun _ _ => True := by
  intro s hSound _
  obtain ⟨hSound', hExtends⟩ := hSound.transfer ((recordMake key).run s).2 rfl hSound.cached
  exact ⟨hSound', hExtends, trivial⟩

theorem insert_keeps (key : SchemaKey) (built : ρ) :
    Keeps I definitions A (Represents I · (A.body key) built) (insert key built)
      fun s r => s.Represents I (A.body key) r := by
  intro s hSound hBuilt
  have hCached : ∀ other r, (s.cache.insert key built).2.get? other = some r →
      s.Represents I (A.body other) r := by
    intro other r hr
    rcases Cache.get?_insert_cases hr with hr | ⟨rfl, rfl⟩
    · exact hSound.cached other r hr
    · exact hBuilt
  have hKept := hCached key _ (s.cache.get?_insert key built)
  obtain ⟨hSound', hExtends⟩ := hSound.transfer ((insert key built).run s).2 rfl hCached
  exact ⟨hSound', hExtends, hKept.mono hExtends⟩

theorem make_keeps {key : Option SchemaKey} {body : Schema} {read : StateM (Store ρ) ρ}
    (hKey : ∀ k, key = some k → body = A.body k)
    (hRead : Keeps I definitions A (fun _ => True) read (Represents I · body)) :
    Keeps I definitions A (fun _ => True) (make key read) (Represents I · body) := by
  cases key with
  | none => exact (recordMake_keeps none).bind fun _ => hRead
  | some k =>
    have hBody := hKey k rfl
    apply Keeps.get
    intro s₀ hSound
    cases hHit : s₀.cache.get? k with
    | some kept =>
      apply Keeps.pure
      intro s hs
      rw [hs.2, hBody]
      exact hSound.cached k kept hHit
    | none =>
      -- Reading may have put something under the key in the meantime, and that is what is kept.
      have hInsert : ∀ built, Keeps I definitions A (Represents I · body built) (insert k built)
          fun s r => s.Represents I body r := by
        rw [hBody]
        exact insert_keeps k
      have hMade := (recordMake_keeps (some k)).bind fun _ => hRead.bind hInsert
      exact hMade.weaken fun _ _ => trivial

variable (I : Interpretation Nat ρ) (definitions : Definitions)

mutual

theorem build_keeps (schema : Schema) (h : schema.Follows A) :
    Keeps I definitions A (fun _ => True) (schema.build I) (Represents I · schema) := by
  cases schema with
  | kind k => exact .pure fun s _ => ⟨(fun _ hLink => nomatch hLink), rfl⟩
  | literal values => exact .pure fun s _ => ⟨(fun _ hLink => nomatch hLink), rfl⟩
  | nullable or =>
    refine (build_keeps or ⟨h.links, h.keyed⟩).bind fun r => .pure fun s hs => ?_
    exact ⟨hs.knows, congrArg I.nullable hs.unfold_eq⟩
  | object props =>
    refine (buildNamed_keeps props h.links h.keyed).bind fun rs => .pure fun s hs => ?_
    exact ⟨hs.knows, congrArg I.object hs.unfold_eq⟩
  | partialObject props =>
    refine (buildNamed_keeps props h.links h.keyed).bind fun rs => .pure fun s hs => ?_
    exact ⟨hs.knows, congrArg I.partialObject hs.unfold_eq⟩
  | record of =>
    refine (build_keeps of ⟨h.links, h.keyed⟩).bind fun r => .pure fun s hs => ?_
    exact ⟨hs.knows, congrArg I.record hs.unfold_eq⟩
  | array of =>
    refine (build_keeps of ⟨h.links, h.keyed⟩).bind fun r => .pure fun s hs => ?_
    exact ⟨hs.knows, congrArg I.array hs.unfold_eq⟩
  | tuple slots =>
    refine (buildEach_keeps slots h.links h.keyed).bind fun rs => .pure fun s hs => ?_
    exact ⟨hs.knows, congrArg I.tuple hs.unfold_eq⟩
  | union members =>
    refine (buildEach_keeps members h.links h.keyed).bind fun rs => .pure fun s hs => ?_
    exact ⟨hs.knows, congrArg I.union hs.unfold_eq⟩
  | inter left right =>
    have hLinks := List.forall_mem_append.mp h.links
    have hKeyed := List.forall_mem_append.mp h.keyed
    refine (build_keeps left ⟨hLinks.1, hKeyed.1⟩).andThen (fun _ hExtends hs => hs.mono hExtends)
      (build_keeps right ⟨hLinks.2, hKeyed.2⟩) fun s l r hl hr => ?_
    exact ⟨List.forall_mem_append.mpr ⟨hl.knows, hr.knows⟩,
      congrArg₂ I.inter hl.unfold_eq hr.unfold_eq⟩
  | tagged tag members =>
    refine (buildNamed_keeps members h.links h.keyed).bind fun rs => .pure fun s hs => ?_
    exact ⟨hs.knows, congrArg (I.tagged tag) hs.unfold_eq⟩
  | refine of holds expected =>
    refine (build_keeps of ⟨h.links, h.keyed⟩).bind fun r => .pure fun s hs => ?_
    exact ⟨hs.knows, congrArg (I.refine · holds expected) hs.unfold_eq⟩
  | lazy link =>
    refine (define_keeps (h.links link List.mem_cons_self)).bind fun handle => .pure fun s hs => ?_
    exact ⟨fun other hOther => List.mem_singleton.mp hOther ▸ hs.1,
      congrArg (I.lazy link.id) hs.2⟩
  | make key body =>
    have hKey : (∀ k, key = some k → body = A.body k) ∧ ∀ e ∈ body.keyed, e.2 = A.body e.1 := by
      cases key with
      | none => exact ⟨(fun _ hNone => nomatch hNone), h.keyed⟩
      | some k =>
        have hKeyed := List.forall_mem_cons.mp h.keyed
        exact ⟨(fun _ hSome => Option.some.inj hSome ▸ hKeyed.1), hKeyed.2⟩
    apply (make_keeps hKey.1 (build_keeps body ⟨h.links, hKey.2⟩)).imp
    intro s r hs
    exact ⟨hs.knows, hs.unfold_eq⟩

theorem buildEach_keeps (schemas : List Schema)
    (hLinks : ∀ link ∈ Schema.linksEach schemas, link.target = A.target link.id link.site)
    (hKeyed : ∀ e ∈ Schema.keyedEach schemas, e.2 = A.body e.1) :
    Keeps I definitions A (fun _ => True) (Schema.buildEach I schemas)
      (RepresentsEach I · schemas) := by
  cases schemas with
  | nil => exact .pure fun s _ => ⟨(fun _ hLink => nomatch hLink), rfl⟩
  | cons schema rest =>
    have hLinks := List.forall_mem_append.mp hLinks
    have hKeyed := List.forall_mem_append.mp hKeyed
    refine (build_keeps schema ⟨hLinks.1, hKeyed.1⟩).andThen (fun _ hExtends hs => hs.mono hExtends)
      (buildEach_keeps rest hLinks.2 hKeyed.2) fun s r rs hr hrs => ?_
    exact ⟨List.forall_mem_append.mpr ⟨hr.knows, hrs.knows⟩,
      congrArg₂ List.cons hr.unfold_eq hrs.unfold_eq⟩

theorem buildNamed_keeps (schemas : List (String × Schema))
    (hLinks : ∀ link ∈ Schema.linksNamed schemas, link.target = A.target link.id link.site)
    (hKeyed : ∀ e ∈ Schema.keyedNamed schemas, e.2 = A.body e.1) :
    Keeps I definitions A (fun _ => True) (Schema.buildNamed I schemas)
      (RepresentsNamed I · schemas) := by
  cases schemas with
  | nil => exact .pure fun s _ => ⟨(fun _ hLink => nomatch hLink), rfl⟩
  | cons e rest =>
    obtain ⟨name, schema⟩ := e
    have hLinks := List.forall_mem_append.mp hLinks
    have hKeyed := List.forall_mem_append.mp hKeyed
    refine (build_keeps schema ⟨hLinks.1, hKeyed.1⟩).andThen (fun _ hExtends hs => hs.mono hExtends)
      (buildNamed_keeps rest hLinks.2 hKeyed.2) fun s r rs hr hrs => ?_
    exact ⟨List.forall_mem_append.mpr ⟨hr.knows, hrs.knows⟩,
      congrArg₂ (fun r rs => (name, r) :: rs) hr.unfold_eq hrs.unfold_eq⟩

end

end JsonShapes.Store
