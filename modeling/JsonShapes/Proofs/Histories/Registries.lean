import JsonShapes.Proofs.Histories.Activities
import Mathlib.Data.String.Basic

/-! # Registries over whole runs

Whatever is done with a registry, by its users or by the thunks that it runs, its entries are the first
definitions of their places, each thunk runs once, and what it returns is what every forcing gives. Steps are
taken on sound records, where a definition whose thunk has begun has its value or is being resolved.
-/
namespace JsonShapes
set_option autoImplicit false

namespace Registry
variable {τ ρ : Type}

/-! ## Looking up -/

theorem places_eq (r : Registry τ ρ) : r.places = r.entries.map (·.1) := by
  rw [entries, List.map_map]
  rfl

theorem mem_insertSorted {id other : String} {ids : List String} :
    other ∈ insertSorted id ids ↔ other = id ∨ other ∈ ids := by
  induction ids with
  | nil => simp [insertSorted]
  | cons first rest ih =>
    rw [insertSorted]
    split
    · rw [List.mem_cons]
    · split
      · rename_i hSame
        subst hSame
        rw [List.mem_cons]
        exact (or_iff_right_of_imp .inl).symm
      · rw [List.mem_cons, ih, List.mem_cons]
        exact or_left_comm

theorem insertSorted_increases {id : String} {ids : List String} (h : ids.Pairwise (· < ·)) :
    (insertSorted id ids).Pairwise (· < ·) := by
  induction ids with
  | nil => exact List.pairwise_singleton _ _
  | cons first rest ih =>
    obtain ⟨hFirst, hRest⟩ := List.pairwise_cons.mp h
    rw [insertSorted]
    split
    · rename_i hBefore
      refine List.pairwise_cons.mpr ⟨fun other hOther => ?_, h⟩
      rcases List.mem_cons.mp hOther with rfl | hOther
      · exact hBefore
      · exact hBefore.trans (hFirst other hOther)
    · split
      · exact h
      · rename_i hNotBefore hOther
        have hAfter : first < id := lt_of_le_of_ne (not_lt.mp hNotBefore) (Ne.symm hOther)
        refine List.pairwise_cons.mpr ⟨fun other hMem => ?_, ih hRest⟩
        rcases mem_insertSorted.mp hMem with rfl | hMem
        · exact hAfter
        · exact hFirst other hMem

theorem ids_spec (r : Registry τ ρ) :
    r.ids.Pairwise (· < ·) ∧ ∀ id, id ∈ r.ids ↔ id ∈ r.definitions.map (·.id) := by
  rw [ids]
  induction r.definitions using List.reverseRecOn with
  | nil => exact ⟨.nil, fun _ => Iff.rfl⟩
  | append_singleton definitions d ih =>
    obtain ⟨hIncrease, hMem⟩ := ih
    rw [List.foldl_append, List.foldl_cons, List.foldl_nil]
    refine ⟨insertSorted_increases hIncrease, fun id => ?_⟩
    rw [mem_insertSorted, hMem, List.map_append, List.mem_append, List.map_singleton, List.mem_singleton]
    exact or_comm

theorem mem_handles_iff (r : Registry τ ρ) (id : String) (handle : Nat) :
    handle ∈ r.handles id ↔ ∃ site, r.places[handle]? = some (id, site) := by
  rw [handles, List.mem_filter, List.mem_range, beq_iff_eq, Option.map_eq_some_iff, places,
    List.getElem?_map]
  constructor
  · rintro ⟨_, d, hDefinition, rfl⟩
    exact ⟨d.site, Option.map_eq_some_iff.mpr ⟨d, hDefinition, rfl⟩⟩
  · rintro ⟨site, hPlace⟩
    obtain ⟨d, hDefinition, hSame⟩ := Option.map_eq_some_iff.mp hPlace
    exact ⟨(List.getElem?_eq_some_iff.mp hDefinition).1, d, hDefinition, congrArg Prod.fst hSame⟩

theorem handles_pairwise (r : Registry τ ρ) (id : String) : (r.handles id).Pairwise (· < ·) :=
  List.Pairwise.filter _ List.pairwise_lt_range

theorem get?_eq_head? (r : Registry τ ρ) (id : String) : r.get? id = (r.handles id).head? := by
  rw [handles, List.head?_filter, get?]
  apply Option.ext
  intro handle
  rw [List.find?_range_eq_some, List.findIdx?_eq_some_iff_getElem]
  constructor
  · rintro ⟨hHandle, hSame, hBefore⟩
    refine ⟨?_, List.mem_range.mpr hHandle, fun earlier hEarlier => ?_⟩
    · rw [List.getElem?_eq_getElem hHandle]
      simpa using hSame
    · rw [List.getElem?_eq_getElem (hEarlier.trans hHandle)]
      simpa using hBefore earlier hEarlier
  · rintro ⟨hSame, hHandle, hBefore⟩
    have hHandle := List.mem_range.mp hHandle
    rw [List.getElem?_eq_getElem hHandle] at hSame
    refine ⟨hHandle, by simpa using hSame, fun earlier hEarlier => ?_⟩
    have hOther := hBefore earlier hEarlier
    rw [List.getElem?_eq_getElem (hEarlier.trans hHandle)] at hOther
    simpa using hOther

/-! ## What a definition and a run change -/

theorem define_known {r : Registry τ ρ} {id : String} {site : Nat} (thunk : τ) (h : (id, site) ∈ r.places) :
    r.define id site thunk = (r.places.idxOf (id, site), r) := by
  have hFound : r.definitions.findIdx? (matching id site) = some (r.places.idxOf (id, site)) := by
    rw [findIdx?_matching, List.findIdx?_eq_some_iff_findIdx_eq]
    exact ⟨List.idxOf_lt_length_iff.mpr h, rfl⟩
  rw [define, hFound]

theorem define_new {r : Registry τ ρ} {id : String} {site : Nat} (thunk : τ) (h : (id, site) ∉ r.places) :
    r.define id site thunk = (r.definitions.length,
      { r with definitions := r.definitions ++ [⟨id, site, thunk, none⟩] }) := by
  have hMissing : r.definitions.findIdx? (matching id site) = none := by
    rw [findIdx?_matching, List.findIdx?_eq_none_iff]
    intro place hPlace
    exact beq_false_of_ne fun hSame => h (hSame ▸ hPlace)
  rw [define, hMissing]

theorem entries_define (r : Registry τ ρ) (id : String) (site : Nat) (thunk : τ) :
    (r.define id site thunk).2.entries = keepFirst r.entries ((id, site), thunk) := by
  rw [keepFirst, ← places_eq]
  split
  · rename_i hKnown
    rw [define_known thunk hKnown]
  · rename_i hNew
    rw [define_new thunk hNew]
    exact List.map_append

theorem runs_define (r : Registry τ ρ) (id : String) (site : Nat) (thunk : τ) :
    (r.define id site thunk).2.runs = r.runs := by
  unfold define
  split <;> rfl

theorem places_define (r : Registry τ ρ) (id : String) (site : Nat) (thunk : τ) :
    (r.define id site thunk).2.places[(r.define id site thunk).1]? = some (id, site) := by
  obtain ⟨hHandle, _, hMem⟩ := r.define_spec id site thunk
  rw [hHandle]
  exact List.getElem?_idxOf hMem

theorem entries_settle (r : Registry τ ρ) (handle : Nat) (v : ρ) : (r.settle handle v).entries = r.entries := by
  apply List.ext_getElem?
  intro i
  rw [entries, entries, List.getElem?_map, List.getElem?_map, getElem?_settle, Option.map_map]
  apply congrArg (Option.map · _)
  funext d
  rw [Function.comp_apply]
  split <;> rfl

namespace Continues
variable {r r' r'' : Registry τ ρ}

theorem refl (r : Registry τ ρ) : r.Continues r := ⟨List.prefix_rfl, List.prefix_rfl, fun h => h⟩

theorem trans (h : r.Continues r') (h' : r'.Continues r'') : r.Continues r'' :=
  ⟨h.entries.trans h'.entries, h.runs.trans h'.runs, fun hv => h'.kept (h.kept hv)⟩

theorem place_kept (h : r.Continues r') {handle : Nat} {place : String × Nat}
    (hPlace : r.places[handle]? = some place) : r'.places[handle]? = some place := by
  have hPlaces : r.places <+: r'.places := by
    rw [places_eq, places_eq]
    exact h.entries.map _
  exact place_of_prefix hPlaces hPlace

theorem define (r : Registry τ ρ) (id : String) (site : Nat) (thunk : τ) :
    r.Continues (r.define id site thunk).2 where
  entries := by
    rw [entries_define, keepFirst]
    split
    · exact List.prefix_rfl
    · exact List.prefix_append ..
  runs := by rw [runs_define]
  kept hv := (r.settled?_define id site thunk _).trans hv

theorem beginRun (r : Registry τ ρ) (handle : Nat) : r.Continues (r.beginRun handle) :=
  ⟨List.prefix_rfl, List.prefix_append .., fun h => h⟩

theorem settle (r : Registry τ ρ) (handle : Nat) (v : ρ) : r.Continues (r.settle handle v) where
  entries := by rw [entries_settle]
  runs := List.prefix_rfl
  kept hw := (Grows.settle (P := fun _ => True) trivial).kept hw

end Continues

/-- What is looked up in a registry follows from its entries. -/
theorem Describes.of_entries {r : Registry τ ρ} {events : List (Event τ ρ)}
    (hEntries : r.entries = firsts (events.filterMap Event.definition?))
    (hRuns : r.runs = events.filterMap Event.begun?) (hOnce : r.runs.Nodup)
    (hKept : ∀ handle v, r.settled? handle = some v ↔ .returned handle v ∈ events) : r.Describes events where
  entries := hEntries
  unique := by
    rw [places_eq, hEntries]
    exact nodup_keys_firsts _
  length := by
    have hLength : r.entries.length = r.length := List.length_map _
    rw [← hLength, hEntries, length_firsts]
  ids_increase := r.ids_spec.1
  mem_ids id := by
    have hKeys : ∀ site, (id, site) ∈ r.places ↔
        (id, site) ∈ (events.filterMap Event.definition?).map (·.1) := by
      intro site
      rw [places_eq, hEntries, mem_keys_firsts]
    rw [r.ids_spec.2]
    constructor
    · intro hMem
      obtain ⟨d, hd, rfl⟩ := List.mem_map.mp hMem
      have hPlace : (d.id, d.site) ∈ r.places := List.mem_map.mpr ⟨d, hd, rfl⟩
      obtain ⟨⟨_, thunk⟩, hDefined, hSame⟩ := List.mem_map.mp ((hKeys d.site).mp hPlace)
      cases hSame
      exact ⟨d.site, thunk, hDefined⟩
    · rintro ⟨site, thunk, hDefined⟩
      obtain ⟨d, hd, hSame⟩ := List.mem_map.mp ((hKeys site).mpr (List.mem_map_of_mem hDefined))
      exact List.mem_map.mpr ⟨d, hd, congrArg Prod.fst hSame⟩
  get := r.get?_eq_head?
  handles_increase := r.handles_pairwise
  mem_handles := r.mem_handles_iff
  runs := hRuns
  once := hOnce
  kept := hKept

theorem Describes.entries_then {r : Registry τ ρ} {events : List (Event τ ρ)} (h : r.Describes events)
    {event : Event τ ρ} (hEvent : event.definition? = none) :
    r.entries = firsts ((events ++ [event]).filterMap Event.definition?) := by
  rw [List.filterMap_append, List.filterMap_cons_none hEvent, h.entries]
  exact congrArg firsts (List.append_nil _).symm

theorem Describes.runs_then {r : Registry τ ρ} {events : List (Event τ ρ)} (h : r.Describes events)
    {event : Event τ ρ} (hEvent : event.begun? = none) :
    r.runs = (events ++ [event]).filterMap Event.begun? := by
  rw [List.filterMap_append, List.filterMap_cons_none hEvent, h.runs]
  exact (List.append_nil _).symm

end Registry

namespace Record
variable {τ ρ α : Type} {s s' s'' : Record τ ρ}

theorem Lawful.add (h : s.Lawful) {event : Event τ ρ} {r : Registry τ ρ} (hEvent : event.Lawful s.events)
    (hGrown : s.registry.Continues r) (hAfter : ∀ after, event.after? = some after → after = r)
    (hDescribes : r.Describes (s.events ++ [event])) (clones : Nat) (opened : List Nat) :
    Lawful ⟨r, clones, opened, s.events ++ [event]⟩ where
  events past e later hSame := by
    rcases List.eq_nil_or_concat later with rfl | ⟨later, last, rfl⟩
    · obtain ⟨rfl, hLast⟩ := List.append_inj' hSame rfl
      cases hLast
      exact hEvent
    · rw [List.concat_eq_append, ← List.cons_append, ← List.append_assoc] at hSame
      exact h.events past e later (List.append_inj' hSame rfl).1
  grown := by
    rw [List.filterMap_append, List.pairwise_append]
    refine ⟨h.grown, ?_, fun r₁ hr₁ r₂ hr₂ => ?_⟩
    · rw [List.filterMap_cons, List.filterMap_nil]
      split
      · exact .nil
      · exact List.pairwise_singleton _ _
    · obtain ⟨e, he, hSome⟩ := List.mem_filterMap.mp hr₂
      cases List.mem_singleton.mp he
      rw [hAfter r₂ hSome]
      exact (h.last r₁ hr₁).trans hGrown
  registry := hDescribes
  last r₁ hr₁ := by
    obtain ⟨e, he, hSome⟩ := List.mem_filterMap.mp hr₁
    rcases List.mem_append.mp he with he | he
    · exact (h.last r₁ (List.mem_filterMap.mpr ⟨e, he, hSome⟩)).trans hGrown
    · cases List.mem_singleton.mp he
      rw [hAfter r₁ hSome]
      exact .refl r

/-- What holds of a record between any two steps: what has begun has come to its end or is being resolved. -/
structure Sound (s : Record τ ρ) : Prop extends s.Lawful where
  begun : ∀ handle ∈ s.registry.runs, handle ∈ s.opened ∨ ∃ v, s.registry.settled? handle = some v
  unsettled : ∀ handle ∈ s.opened, s.registry.settled? handle = none
  known : ∀ handle ∈ s.opened, ∃ place, s.registry.places[handle]? = some place
  entered : ∀ handle ∈ s.opened, ∃ thunk, .begun handle thunk ∈ s.events
  distinct : s.opened.Nodup
  places : ∀ id site thunk handle before after, .defined id site thunk handle before after ∈ s.events →
    s.registry.places[handle]? = some (id, site)

theorem sound_start : (start : Record τ ρ).Sound where
  events past _ _ hSame := absurd hSame.symm (List.append_ne_nil_of_right_ne_nil past (List.cons_ne_nil _ _))
  grown := .nil
  registry := .of_entries rfl rfl .nil fun _ _ => ⟨nofun, nofun⟩
  last := List.forall_mem_nil _
  begun := List.forall_mem_nil _
  unsettled := List.forall_mem_nil _
  known := List.forall_mem_nil _
  entered := List.forall_mem_nil _
  distinct := .nil
  places := nofun

/-! ## One step -/

theorem Sound.entered_then (h : s.Sound) (event : Event τ ρ) :
    ∀ handle ∈ s.opened, ∃ thunk, .begun handle thunk ∈ s.events ++ [event] := by
  intro handle hOpen
  obtain ⟨thunk, hBegun⟩ := h.entered handle hOpen
  exact ⟨thunk, List.mem_append_left _ hBegun⟩

/-- Handles stay where they are while the registry grows, so only a new definition has to be placed. -/
theorem Sound.places_then (h : s.Sound) {event : Event τ ρ} {r : Registry τ ρ} (hGrown : s.registry.Continues r)
    (hEvent : ∀ id site thunk handle before after, event = .defined id site thunk handle before after →
      r.places[handle]? = some (id, site)) :
    ∀ id site thunk handle before after, .defined id site thunk handle before after ∈ s.events ++ [event] →
      r.places[handle]? = some (id, site) := by
  intro id site thunk handle before after hMem
  rcases List.mem_append.mp hMem with hPast | hNow
  · exact hGrown.place_kept (h.places _ _ _ _ _ _ hPast)
  · exact hEvent _ _ _ _ _ _ (List.mem_singleton.mp hNow).symm

theorem Sound.define (h : s.Sound) (id : String) (site : Nat) (thunk : τ) :
    Sound ⟨(s.registry.define id site thunk).2, s.clones, s.opened, s.events ++
      [.defined id site thunk (s.registry.define id site thunk).1 s.registry
        (s.registry.define id site thunk).2]⟩ := by
  have hGrown := Registry.Continues.define s.registry id site thunk
  have hPlace := s.registry.places_define id site thunk
  have hRuns := s.registry.runs_define id site thunk
  have hSettled := s.registry.settled?_define id site thunk
  have hEntries := s.registry.entries_define id site thunk
  have hAgain : ∀ thunk' handle' before' after', .defined id site thunk' handle' before' after' ∈ s.events →
      (s.registry.define id site thunk).1 = handle' ∧ (s.registry.define id site thunk).2 = s.registry := by
    intro thunk' handle' before' after' hPast
    obtain ⟨hHandle, hSame⟩ := List.getElem?_eq_some_iff.mp (h.places _ _ _ _ _ _ hPast)
    rw [Registry.define_known thunk (List.mem_iff_getElem.mpr ⟨handle', hHandle, hSame⟩), ← hSame]
    exact ⟨h.registry.unique.idxOf_getElem handle' hHandle, rfl⟩
  generalize (s.registry.define id site thunk).1 = handle, (s.registry.define id site thunk).2 = r at *
  have hDescribes : r.Describes (s.events ++ [.defined id site thunk handle s.registry r]) := by
    apply Registry.Describes.of_entries
    · rw [List.filterMap_append, hEntries, h.registry.entries]
      exact (firsts_concat _ _).symm
    · exact hRuns.trans (h.registry.runs_then rfl)
    · rw [hRuns]
      exact h.registry.once
    · intro other v
      rw [hSettled, h.registry.kept]
      simp
  have hEvent : (Event.defined id site thunk handle s.registry r).Lawful s.events :=
    ⟨hPlace, hDescribes, hGrown, hRuns, hAgain⟩
  have hAfter : ∀ after, (Event.defined id site thunk handle s.registry r).after? = some after → after = r :=
    fun _ hSome => (Option.some.inj hSome).symm
  refine ⟨h.toLawful.add hEvent hGrown hAfter hDescribes _ _, ?_, ?_, ?_, h.entered_then _, h.distinct,
    h.places_then hGrown ?_⟩
  · intro other hRun
    rw [hRuns] at hRun
    simp only [hSettled]
    exact h.begun other hRun
  · intro other hOpen
    rw [hSettled]
    exact h.unsettled other hOpen
  · intro other hOpen
    obtain ⟨place, hKnown⟩ := h.known other hOpen
    exact ⟨place, hGrown.place_kept hKnown⟩
  · intro id' site' thunk' handle' before' after' hSame
    cases hSame
    exact hPlace

/-- A thunk that has run is settled or being resolved, so it is not among those that can begin. -/
theorem Sound.begin (h : s.Sound) {handle : Nat} {d : Definition τ ρ}
    (hDefinition : s.registry.definition? handle = some d) (hValue : d.value = none) (hOpen : handle ∉ s.opened) :
    Sound ⟨s.registry.beginRun handle, s.clones, handle :: s.opened, s.events ++ [.begun handle d.thunk]⟩ := by
  have hUnsettled : s.registry.settled? handle = none :=
    (Registry.settled?_of_definition hDefinition).trans hValue
  have hNew : handle ∉ s.registry.runs := by
    intro hRun
    rcases h.begun handle hRun with hMem | ⟨v, hSettled⟩
    · exact hOpen hMem
    · cases hUnsettled.symm.trans hSettled
  have hEntry : s.registry.entries[handle]? = some ((d.id, d.site), d.thunk) := by
    rw [Registry.entries, List.getElem?_map]
    exact congrArg (Option.map _) hDefinition
  have hDescribes : (s.registry.beginRun handle).Describes (s.events ++ [.begun handle d.thunk]) := by
    apply Registry.Describes.of_entries
    · exact h.registry.entries_then rfl
    · rw [List.filterMap_append, ← h.registry.runs]
      rfl
    · exact List.nodup_append.mpr ⟨h.registry.once, List.pairwise_singleton _ _, fun other hOther _ hSame =>
        List.mem_singleton.mp hSame ▸ fun hHandle => hNew (hHandle ▸ hOther)⟩
    · intro other v
      refine (h.registry.kept other v).trans ?_
      simp
  have hEvent : (Event.begun handle d.thunk : Event τ ρ).Lawful s.events := by
    refine ⟨fun thunk' hPast => hNew ?_, (d.id, d.site), ?_⟩
    · rw [h.registry.runs]
      exact List.mem_filterMap.mpr ⟨_, hPast, rfl⟩
    · rw [← h.registry.entries]
      exact hEntry
  have hAfter : ∀ after, (Event.begun handle d.thunk : Event τ ρ).after? = some after →
      after = s.registry.beginRun handle := fun _ hNone => by cases hNone
  refine ⟨h.toLawful.add hEvent (.beginRun _ _) hAfter hDescribes _ _, ?_, ?_, ?_, ?_, ?_,
    h.places_then (.beginRun _ _) ?_⟩
  · intro other hRun
    rcases List.mem_append.mp hRun with hRun | hRun
    · exact (h.begun other hRun).imp_left (List.mem_cons_of_mem _)
    · exact .inl (List.mem_singleton.mp hRun ▸ List.mem_cons_self)
  · exact List.forall_mem_cons.mpr ⟨hUnsettled, h.unsettled⟩
  · refine List.forall_mem_cons.mpr ⟨⟨(d.id, d.site), ?_⟩, h.known⟩
    rw [Registry.places_eq]
    change (s.registry.entries.map _)[handle]? = _
    rw [List.getElem?_map, hEntry]
    rfl
  · exact List.forall_mem_cons.mpr
      ⟨⟨d.thunk, List.mem_append_right _ List.mem_cons_self⟩, h.entered_then _⟩
  · exact List.nodup_cons.mpr ⟨hOpen, h.distinct⟩
  · intro _ _ _ _ _ _ hSame
    cases hSame

/-- The definition that is being resolved is still without a value, so it keeps the one it gets now. -/
theorem Sound.finish (h : s.Sound) {handle : Nat} {opened : List Nat} (hOpened : s.opened = handle :: opened)
    (v : ρ) : Sound ⟨s.registry.settle handle v, s.clones, opened, s.events ++ [.returned handle v]⟩ := by
  have hMem : handle ∈ s.opened := hOpened ▸ List.mem_cons_self
  have hUnsettled := h.unsettled handle hMem
  obtain ⟨place, hPlace⟩ := h.known handle hMem
  have hOther : ∀ {other}, other ≠ handle →
      (s.registry.settle handle v).settled? other = s.registry.settled? other :=
    fun hNe => Registry.settled?_settle_of_ne s.registry hNe.symm v
  have hThis : (s.registry.settle handle v).settled? handle = some v := by
    rw [Registry.places, List.getElem?_map] at hPlace
    obtain ⟨d, hDefinition, _⟩ := Option.map_eq_some_iff.mp hPlace
    have hValue : d.value = none := (Registry.settled?_of_definition hDefinition).symm.trans hUnsettled
    exact Registry.settled?_settle_self hDefinition hValue v
  have hNever : ∀ w, .returned handle w ∉ s.events := by
    intro w hPast
    cases hUnsettled.symm.trans ((h.registry.kept handle w).mpr hPast)
  have hDescribes : (s.registry.settle handle v).Describes (s.events ++ [.returned handle v]) := by
    apply Registry.Describes.of_entries
    · rw [Registry.entries_settle]
      exact h.registry.entries_then rfl
    · exact h.registry.runs_then rfl
    · exact h.registry.once
    · intro other w
      rw [List.mem_append, List.mem_singleton]
      by_cases hSame : other = handle
      · subst hSame
        rw [hThis, or_iff_right (hNever w)]
        simp [eq_comm]
      · rw [hOther hSame, h.registry.kept]
        simp [hSame]
  have hEvent : (Event.returned handle v : Event τ ρ).Lawful s.events := ⟨h.entered handle hMem, hNever⟩
  have hDistinct := List.nodup_cons.mp (hOpened ▸ h.distinct)
  have hOpen : ∀ other ∈ opened, other ∈ s.opened := fun other hMem => hOpened ▸ List.mem_cons_of_mem _ hMem
  have hAfter : ∀ after, (Event.returned handle v : Event τ ρ).after? = some after →
      after = s.registry.settle handle v := fun _ hNone => by cases hNone
  refine ⟨h.toLawful.add hEvent (.settle _ _ _) hAfter hDescribes _ _, ?_, ?_, ?_, ?_, hDistinct.2,
    h.places_then (.settle _ _ _) ?_⟩
  · intro other hRun
    by_cases hSame : other = handle
    · exact .inr ⟨v, hSame ▸ hThis⟩
    · rcases h.begun other hRun with hMem | hSettled
      · rw [hOpened] at hMem
        exact .inl ((List.mem_cons.mp hMem).resolve_left hSame)
      · simp only [hOther hSame]
        exact .inr hSettled
  · intro other hMem
    have hNe : other ≠ handle := fun hSame => hDistinct.1 (hSame ▸ hMem)
    exact (hOther hNe).trans (h.unsettled other (hOpen other hMem))
  · intro other hMem
    rw [Registry.places_settle]
    exact h.known other (hOpen other hMem)
  · exact fun other hMem => h.entered_then _ other (hOpen other hMem)
  · intro _ _ _ _ _ _ hSame
    cases hSame

theorem Sound.note_forced (h : s.Sound) {handle : Nat} {v : ρ} (hSettled : s.registry.settled? handle = some v)
    {before : Registry τ ρ} (hBefore : before.Continues s.registry) :
    Sound { s with events := s.events ++ [.forced handle v before s.registry] } := by
  have hDescribes : s.registry.Describes (s.events ++ [.forced handle v before s.registry]) := by
    apply Registry.Describes.of_entries
    · exact h.registry.entries_then rfl
    · exact h.registry.runs_then rfl
    · exact h.registry.once
    · intro other w
      rw [h.registry.kept]
      simp
  have hEvent : (Event.forced handle v before s.registry).Lawful s.events :=
    ⟨(h.registry.kept handle v).mp hSettled, h.registry, hBefore⟩
  have hAfter : ∀ after, (Event.forced handle v before s.registry).after? = some after → after = s.registry :=
    fun _ hSome => (Option.some.inj hSome).symm
  exact ⟨h.toLawful.add hEvent (.refl _) hAfter hDescribes _ _, h.begun, h.unsettled, h.known, h.entered_then _,
    h.distinct, h.places_then (.refl _) nofun⟩

/-! ## Whole runs -/

/-- Whatever has been done, nothing but what was being resolved before is still being resolved. -/
structure Follows (s s' : Record τ ρ) : Prop where
  sound : s'.Sound
  opened : s'.opened = s.opened
  grown : s.registry.Continues s'.registry

theorem Follows.trans (h : s.Follows s') (h' : s'.Follows s'') : s.Follows s'' :=
  ⟨h'.sound, h'.opened.trans h.opened, h.grown.trans h'.grown⟩

def Keeps (x : StateT (Record τ ρ) Option α) : Prop := ∀ {s a s'}, s.Sound → x.run s = some (a, s') → s.Follows s'

variable {run : τ → StateT (Record τ ρ) Option ρ}

/-- The thunk of a definition without a value begins on a sound record, and what it does leaves the definition
open until it returns. -/
theorem resolving_follows (hRun : ∀ thunk, Keeps (run thunk)) (hs : s.Sound) {handle : Nat}
    (hOpen : handle ∉ s.opened) {v : ρ} {t : Record τ ρ}
    (hFound : (Registry.force registryPart (resolving run handle) handle).run s = some (some v, t)) :
    s.Follows t ∧ t.registry.settled? handle = some v := by
  cases hDefinition : (registryPart.get s).definition? handle with
  | none =>
    have hNone : (Registry.force registryPart (resolving run handle) handle).run s = some (none, s) := by
      simp only [Registry.force, StateT.run_bind, StateT.run_get, pure_bind, hDefinition]
      rfl
    cases hNone.symm.trans hFound
  | some d =>
    cases hValue : d.value with
    | some w =>
      rw [Registry.force_kept hDefinition hValue] at hFound
      cases hFound
      exact ⟨⟨hs, rfl, .refl _⟩, (Registry.settled?_of_definition hDefinition).trans hValue⟩
    | none =>
      rw [Registry.force_run hDefinition hValue] at hFound
      obtain ⟨⟨w, resolved⟩, hResolving, hEnd⟩ := Option.map_eq_some_iff.mp hFound
      cases hEnd
      obtain ⟨⟨w, inner⟩, hBody, hEnd⟩ := Option.bind_eq_some_iff.mp hResolving
      cases hEnd
      have hInner := hRun d.thunk (hs.begin hDefinition hValue hOpen) hBody
      have hFinished := hInner.sound.finish hInner.opened w
      have hTail : inner.opened.tail = s.opened := congrArg List.tail hInner.opened
      have hGrown := (Registry.Continues.beginRun s.registry handle).trans
        (hInner.grown.trans (.settle inner.registry handle w))
      change s.Follows ⟨inner.registry.settle handle w, inner.clones, inner.opened.tail,
        inner.events ++ [.returned handle w]⟩ ∧ (inner.registry.settle handle w).settled? handle = some w
      rw [hTail]
      refine ⟨⟨hFinished, rfl, hGrown⟩, ?_⟩
      exact (hFinished.registry.kept handle w).mpr (List.mem_append_right _ List.mem_cons_self)

theorem force_keeps (hRun : ∀ thunk, Keeps (run thunk)) (handle : Nat) : Keeps (force run handle) := by
  intro s value s' hs hForce
  by_cases hOpen : handle ∈ s.opened
  · simp only [force, StateT.run_bind, StateT.run_get, pure_bind, if_pos hOpen] at hForce
    cases hForce
  · simp only [force, StateT.run_bind, StateT.run_get, pure_bind, if_neg hOpen] at hForce
    obtain ⟨⟨found, t⟩, hFound, hForce⟩ := Option.bind_eq_some_iff.mp hForce
    cases found with
    | none => cases hForce
    | some v =>
      cases hForce
      obtain ⟨hFollows, hSettled⟩ := resolving_follows hRun hs hOpen hFound
      exact ⟨hFollows.sound.note_forced hSettled hFollows.grown, hFollows.opened, hFollows.grown⟩

end Record

namespace Activity
variable {τ ρ α : Type}

theorem perform_keeps {run : τ → StateT (Record τ ρ) Option ρ} (hRun : ∀ thunk, Record.Keeps (run thunk))
    (activity : Activity τ ρ α) : Record.Keeps (activity.perform run) := by
  induction activity with
  | done result =>
    intro s _ _ hs h
    cases h
    exact ⟨hs, rfl, .refl _⟩
  | clone via next ih =>
    intro s a s' hs h
    simp only [perform, StateT.run_bind, StateT.run_get, pure_bind] at h
    split at h
    · cases h
    · have hCloned : Record.Sound { s with clones := s.clones + 1 } := { hs with }
      have hRest := ih s.clones hCloned h
      exact ⟨hRest.sound, hRest.opened, hRest.grown⟩
  | define via id site thunk next ih =>
    intro s a s' hs h
    simp only [perform, StateT.run_bind, StateT.run_get, pure_bind] at h
    split at h
    · cases h
    · have hDefined := hs.define id site thunk
      have hRest := ih _ hDefined h
      exact ⟨hRest.sound, hRest.opened, (Registry.Continues.define ..).trans hRest.grown⟩
  | force handle next ih =>
    intro s a s' hs h
    obtain ⟨⟨value, t⟩, hForce, hRest⟩ := Option.bind_eq_some_iff.mp h
    have hForced := Record.force_keeps hRun handle hs hForce
    exact hForced.trans (ih value hForced.sound hRest)

theorem resolve_keeps (bodies : τ → Activity τ ρ ρ) (bound : Nat) (thunk : τ) :
    Record.Keeps (resolve bodies bound thunk) := by
  induction bound generalizing thunk with
  | zero =>
    intro s a s' hs h
    cases h
  | succ bound ih => exact perform_keeps ih (bodies thunk)

theorem perform_lawful (bodies : τ → Activity τ ρ ρ) (bound : Nat) (activity : Activity τ ρ α) {result : α}
    {s : Record τ ρ} (h : (activity.perform (resolve bodies bound)).run .start = some (result, s)) : s.Lawful :=
  (perform_keeps (resolve_keeps bodies bound) activity Record.sound_start h).sound.toLawful

end Activity
end JsonShapes
