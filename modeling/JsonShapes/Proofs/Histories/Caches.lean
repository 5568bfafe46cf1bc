import JsonShapes.Proofs.Histories.Makings

/-! # Caches over whole sessions

However schemas are made, one inside another or one after the other, on an interpreter or on its clones, the cache
holds of each key what the first make of it that came to its end has given, and every make of the key gives that.
-/
namespace JsonShapes
set_option autoImplicit false

variable {ρ : Type}

namespace Cache

theorem get?_eq_none_iff {c : Cache ρ} {key : SchemaKey} :
    c.get? key = none ↔ key ∉ c.entries.map (·.1) := by
  rw [get?, List.lookup_eq_none_iff, List.mem_map]
  constructor
  · rintro h ⟨entry, hEntry, hKey⟩
    have hOther := h entry hEntry
    rw [hKey, bne_self_eq_false] at hOther
    cases hOther
  · intro h entry hEntry
    exact bne_iff_ne.mpr fun hKey => h ⟨entry, hEntry, hKey.symm⟩

theorem mem_keys_of_get? {c : Cache ρ} {key : SchemaKey} {kept : ρ} (h : c.get? key = some kept) :
    key ∈ c.entries.map (·.1) := by
  by_contra hMissing
  cases (get?_eq_none_iff.mpr hMissing).symm.trans h

/-- What is given back is what is kept, so the entries are those that keep it first. -/
theorem entries_insert (c : Cache ρ) (key : SchemaKey) (built : ρ) :
    (c.insert key built).2.entries = keepFirst c.entries (key, (c.insert key built).1) := by
  rw [insert, keepFirst]
  cases hKept : c.get? key with
  | some kept => rw [if_pos (mem_keys_of_get? hKept)]
  | none => rw [if_neg (get?_eq_none_iff.mp hKept)]

theorem get?_of_prefix {c c' : Cache ρ} (h : c.entries <+: c'.entries) {key : SchemaKey} {kept : ρ}
    (hKept : c.get? key = some kept) : c'.get? key = some kept := by
  obtain ⟨later, hLater⟩ := h
  rw [get?] at hKept
  rw [get?, ← hLater, List.lookup_append, hKept, Option.some_or]

end Cache

/-! ## The laws of a call -/

namespace Call

def kept? (c : Call ρ) : Option (SchemaKey × ρ) := c.key.map fun key => (key, c.result)

/-- What holds of a call that comes to its end after those of the past. -/
structure Lawful (past : List (Call ρ)) (c : Call ρ) : Prop where
  run : (Store.make c.key c.interpret.run).run c.before = (c.result, c.after)
  interpreted : ∀ outcome, c.interpreted = some outcome →
    c.interpret.run.run { c.before with made := c.before.made ++ [c.key] } = outcome
  grown : c.before.cache.entries <+: c.after.cache.entries
  keyed : ∀ key, c.key = some key → c.after.cache.get? key = some c.result
  hit : ∀ key kept, c.key = some key → c.before.cache.get? key = some kept →
    c.interpreted = none ∧ c.result = kept ∧ c.after = c.before ∧
      ∀ read, (Store.make c.key read).run c.before = (kept, c.before)
  miss : ∀ key, c.key = some key → c.before.cache.get? key = none →
    ∃ built left, c.interpreted = some (built, left) ∧ (c.result, c.after.cache) = left.cache.insert key built
  keyless : c.key = none → c.interpreted = some (c.result, c.after)
  made : c.interpreted.isSome → c.before.made ++ [c.key] <+: c.after.made
  entries : c.after.cache.entries = firsts ((past ++ [c]).filterMap kept?)
  length : c.after.cache.length = ((past ++ [c]).filterMap (·.key)).toFinset.card

/-- Each of the calls is lawful after those before it. -/
def EachLawful : List (Call ρ) → List (Call ρ) → Prop
  | _, [] => True
  | past, c :: later => c.Lawful past ∧ EachLawful (past ++ [c]) later

theorem eachLawful_append {past calls later : List (Call ρ)} (h : EachLawful past calls)
    (hLater : EachLawful (past ++ calls) later) : EachLawful past (calls ++ later) := by
  induction calls generalizing past with
  | nil => rwa [List.append_nil] at hLater
  | cons c calls ih =>
    rw [← List.singleton_append, ← List.append_assoc] at hLater
    exact ⟨h.1, ih h.2 hLater⟩

theorem eachLawful_split {past before later : List (Call ρ)} {c : Call ρ}
    (h : EachLawful past (before ++ c :: later)) : c.Lawful (past ++ before) := by
  induction before generalizing past with
  | nil =>
    rw [List.append_nil]
    exact h.1
  | cons first before ih =>
    have hLater := ih h.2
    rwa [List.append_assoc, List.singleton_append] at hLater

theorem keys_kept (calls : List (Call ρ)) :
    (calls.filterMap kept?).map (·.1) = calls.filterMap (·.key) := by
  rw [List.map_filterMap]
  congr 1
  funext c
  rw [kept?, Option.map_map]
  exact Option.map_id'

theorem length_eq {past : List (Call ρ)} {cache : Cache ρ}
    (h : cache.entries = firsts (past.filterMap kept?)) :
    cache.length = (past.filterMap (·.key)).toFinset.card := by
  rw [Cache.length, h, length_firsts, keys_kept]

/-- The calls lead from one store to the other. -/
structure Lead (past calls : List (Call ρ)) (s t : Store ρ) : Prop where
  lawful : EachLawful past calls
  entries : t.cache.entries = firsts ((past ++ calls).filterMap kept?)
  grown : s.cache.entries <+: t.cache.entries
  made : s.made <+: t.made

variable {past calls later : List (Call ρ)} {s t u : Store ρ}

theorem Lead.refl (h : s.cache.entries = firsts (past.filterMap kept?)) : Lead past [] s s where
  lawful := trivial
  entries := by rw [List.append_nil, h]
  grown := List.prefix_rfl
  made := List.prefix_rfl

theorem Lead.trans (h : Lead past calls s t) (h' : Lead (past ++ calls) later t u) :
    Lead past (calls ++ later) s u where
  lawful := eachLawful_append h.lawful h'.lawful
  entries := by rw [← List.append_assoc, h'.entries]
  grown := h.grown.trans h'.grown
  made := h.made.trans h'.made

theorem Lead.finish {c : Call ρ} (h : EachLawful past calls) (hc : c.Lawful (past ++ calls))
    (hMade : c.before.made <+: c.after.made) : Lead past (calls ++ [c]) c.before c.after where
  lawful := eachLawful_append h ⟨hc, trivial⟩
  entries := by rw [← List.append_assoc, hc.entries]
  grown := hc.grown
  made := hMade

theorem Lead.hit (h : s.cache.entries = firsts (past.filterMap kept?)) {key : SchemaKey} {kept : ρ}
    (hKept : s.cache.get? key = some kept) (interpret : Making ρ) :
    Lead past [⟨some key, interpret, s, none, kept, s⟩] s s := by
  have hEntries : s.cache.entries =
      firsts ((past ++ [Call.mk (some key) interpret s none kept s]).filterMap kept?) := by
    have hKnown := Cache.mem_keys_of_get? hKept
    rw [h] at hKnown
    rw [List.filterMap_append, h]
    exact (firsts_concat_of_mem (p := (key, kept)) hKnown).symm
  have hNone : EachLawful past [] := trivial
  refine .finish (c := ⟨some key, interpret, s, none, kept, s⟩) hNone ?_ List.prefix_rfl
  rw [List.append_nil]
  constructor
  · exact Store.make_hit hKept _
  · intro outcome hOutcome
    cases hOutcome
  · exact List.prefix_rfl
  · intro k hKey
    cases hKey
    exact hKept
  · intro k w hKey hFound
    cases hKey
    cases hKept.symm.trans hFound
    exact ⟨rfl, rfl, rfl, Store.make_hit hKept⟩
  · intro k hKey hMissing
    cases hKey
    cases hKept.symm.trans hMissing
  · intro hKey
    cases hKey
  · intro hSome
    cases hSome
  · exact hEntries
  · exact length_eq hEntries

theorem Lead.keyless {interpret : Making ρ} {r : ρ}
    (hInterpret : interpret.run.run { s with made := s.made ++ [none] } = (r, t))
    (h : Lead past calls { s with made := s.made ++ [none] } t) :
    Lead past (calls ++ [⟨none, interpret, s, some (r, t), r, t⟩]) s t := by
  have hEntries : t.cache.entries =
      firsts ((past ++ calls ++ [Call.mk none interpret s (some (r, t)) r t]).filterMap kept?) := by
    rw [h.entries, List.filterMap_append (l := past ++ calls)]
    exact congrArg firsts (List.append_nil _).symm
  refine .finish (c := ⟨none, interpret, s, some (r, t), r, t⟩) h.lawful ?_ ((List.prefix_append _ _).trans h.made)
  constructor
  · exact hInterpret
  · intro outcome hOutcome
    cases hOutcome
    exact hInterpret
  · exact h.grown
  · intro k hKey
    cases hKey
  · intro k w hKey
    cases hKey
  · intro k hKey
    cases hKey
  · exact fun _ => rfl
  · exact fun _ => h.made
  · exact hEntries
  · exact length_eq hEntries

/-- Interpreting may have filled the place in between; what is kept is given either way. -/
theorem Lead.miss {key : SchemaKey} (hMiss : s.cache.get? key = none) {interpret : Making ρ} {built : ρ}
    (hInterpret : interpret.run.run { s with made := s.made ++ [some key] } = (built, t))
    (h : Lead past calls { s with made := s.made ++ [some key] } t) :
    Lead past (calls ++ [⟨some key, interpret, s, some (built, t), (t.cache.insert key built).1,
      { t with cache := (t.cache.insert key built).2 }⟩]) s { t with cache := (t.cache.insert key built).2 } := by
  have hRun : (Store.make (some key) interpret.run).run s =
      ((t.cache.insert key built).1, { t with cache := (t.cache.insert key built).2 }) := by
    rw [Store.make_miss hMiss, hInterpret]
    rfl
  have hInsert := t.cache.entries_insert key built
  have hKept := t.cache.get?_insert key built
  have hPair : ((t.cache.insert key built).1, (t.cache.insert key built).2) = t.cache.insert key built := rfl
  generalize (t.cache.insert key built).1 = result, (t.cache.insert key built).2 = cache at *
  have hEntries : cache.entries = firsts ((past ++ calls ++
      [Call.mk (some key) interpret s (some (built, t)) result { t with cache }]).filterMap kept?) := by
    rw [hInsert, h.entries, List.filterMap_append (l := past ++ calls)]
    exact (firsts_concat _ _).symm
  have hGrown : t.cache.entries <+: cache.entries := by
    rw [hInsert, keepFirst]
    split
    · exact List.prefix_rfl
    · exact List.prefix_append ..
  refine .finish (c := ⟨some key, interpret, s, some (built, t), result, { t with cache }⟩) h.lawful ?_
    ((List.prefix_append _ _).trans h.made)
  constructor
  · exact hRun
  · intro outcome hOutcome
    cases hOutcome
    exact hInterpret
  · exact h.grown.trans hGrown
  · intro k hKey
    cases hKey
    exact hKept
  · intro k w hKey hFound
    cases hKey
    cases hMiss.symm.trans hFound
  · intro k hKey _
    cases hKey
    exact ⟨built, t, rfl, hPair⟩
  · intro hKey
    cases hKey
  · exact fun _ => h.made
  · exact hEntries
  · exact length_eq hEntries

end Call

/-! ## Whole makings -/

namespace Making
variable {key : Option SchemaKey} {interpret : Making ρ} {next : ρ → Making ρ} {s after : Store ρ} {result : ρ}

theorem run_make (h : (Store.make key interpret.run).run s = (result, after)) :
    (make key interpret next).run.run s = (next result).run.run after := by
  rw [run, StateT.run_bind, h]
  rfl

theorem calls_hit (hNone : s.handover? key = none) (h : (Store.make key interpret.run).run s = (result, after)) :
    (make key interpret next).calls s =
      [⟨key, interpret, s, none, result, after⟩] ++ (next result).calls after := by
  simp only [calls, h, hNone, List.singleton_append]

theorem calls_miss {inner : Store ρ} (hInner : s.handover? key = some inner)
    (h : (Store.make key interpret.run).run s = (result, after)) :
    (make key interpret next).calls s =
      (interpret.calls inner ++ [⟨key, interpret, s, some (interpret.run.run inner), result, after⟩]) ++
        (next result).calls after := by
  simp only [calls, h, hInner, List.append_assoc, List.singleton_append]

/-- The induction is on the making: what is interpreted inside a make comes to its end before the make does. -/
theorem calls_lead (m : Making ρ) {past : List (Call ρ)} {s : Store ρ}
    (h : s.cache.entries = firsts (past.filterMap Call.kept?)) :
    Call.Lead past (m.calls s) s (m.run.run s).2 := by
  induction m generalizing past s with
  | done result => exact .refl h
  | define link next ih =>
    have hNext := ih ((Store.define link).run s).1 (s := ((Store.define link).run s).2) h
    exact ⟨hNext.lawful, hNext.entries, hNext.grown, hNext.made⟩
  | make key interpret next ihInterpret ihNext =>
    cases key with
    | none =>
      have hRun := Store.make_keyless s interpret.run
      have hHandover : s.handover? none = some { s with made := s.made ++ [none] } := rfl
      have hInner : Call.Lead past _ { s with made := s.made ++ [none] } _ := ihInterpret h
      have hInterpret : interpret.run.run { s with made := s.made ++ [none] } = (_, _) := rfl
      have hCall := hInner.keyless hInterpret
      rw [run_make hRun, calls_miss hHandover hRun]
      exact hCall.trans (ihNext _ hCall.entries)
    | some k =>
      cases hKept : s.cache.get? k with
      | some kept =>
        have hRun := Store.make_hit hKept interpret.run
        have hHandover : s.handover? (some k) = none := by
          rw [Store.handover?, Option.bind_some, hKept]
        have hCall := Call.Lead.hit h hKept interpret
        rw [run_make hRun, calls_hit hHandover hRun]
        exact hCall.trans (ihNext kept hCall.entries)
      | none =>
        have hRun := Store.make_miss hKept interpret.run
        have hHandover : s.handover? (some k) = some { s with made := s.made ++ [some k] } := by
          rw [Store.handover?, Option.bind_some, hKept]
        have hInner : Call.Lead past _ { s with made := s.made ++ [some k] } _ := ihInterpret h
        have hInterpret : interpret.run.run { s with made := s.made ++ [some k] } = (_, _) := rfl
        have hCall := hInner.miss hKept hInterpret
        rw [run_make hRun, calls_miss hHandover hRun]
        exact hCall.trans (ihNext _ hCall.entries)

end Making

/-! ## Whole sessions -/

/-- What is asked of the hosts of a session: to be cloned, to make a schema, or to build one that is given as a
term. -/
inductive Request (ρ : Type) where
  | clone (host : Nat)
  | make (host : Nat) (key : Option SchemaKey) (interpret : Making ρ)
  | build (host : Nat) (schema : Schema)

namespace Session
variable {out : Type} (J : Interpreter ρ out) (definitions : Definitions)

/-- Does what is asked and gives the calls that have come to their end. -/
def serve : Request ρ → StateT (Session ρ) Option (List (Call ρ))
  | .clone host => do
    let _ ← step J definitions host .clone
    return []
  | .make host key interpret => do
    let some i := (← get).hosts[host]? | failure
    let m := Making.make key interpret .done
    inStore i fun s => some (m.calls s, (m.run.run s).2)
  | .build host schema => do
    let some s := (← get).store? host | failure
    let _ ← step J definitions host (.build schema)
    return (schema.making J.interpretation .done).calls s

def serveAll : List (Request ρ) → StateT (Session ρ) Option (List (Call ρ))
  | [] => return []
  | request :: later => do
    let calls ← serve J definitions request
    let rest ← serveAll later
    return calls ++ rest

/-- All hosts work in the one store of the session. -/
structure Shares (S : Session ρ) (s : Store ρ) : Prop where
  stores : S.stores = [s]
  hosts : ∀ i ∈ S.hosts, i = 0

variable {J definitions} {S S' : Session ρ} {s : Store ρ} {past calls : List (Call ρ)}

theorem Shares.host (h : S.Shares s) {host i : Nat} (hHost : S.hosts[host]? = some i) : i = 0 :=
  h.hosts i (List.mem_of_getElem? hHost)

theorem serve_spec {request : Request ρ} (hS : S.Shares s) (h : s.cache.entries = firsts (past.filterMap Call.kept?))
    (hServed : (serve J definitions request).run S = some (calls, S')) :
    ∃ t, S'.Shares t ∧ Call.Lead past calls s t := by
  cases request with
  | clone host =>
    cases hHost : S.hosts[host]? with
    | none =>
      rw [serve, StateT.run_bind, step, step_no_host hHost] at hServed
      cases hServed
    | some i =>
      rw [serve, StateT.run_bind, step, step_clone hHost] at hServed
      cases hServed
      refine ⟨s, ⟨hS.stores, ?_⟩, .refl h⟩
      intro j hj
      rcases List.mem_append.mp hj with hj | hj
      · exact hS.hosts j hj
      · rw [List.mem_singleton.mp hj]
        exact hS.host hHost
  | make host key interpret =>
    cases hHost : S.hosts[host]? with
    | none =>
      simp only [serve, StateT.run_bind, StateT.run_get, pure_bind, hHost] at hServed
      cases hServed
    | some i =>
      cases hS.host hHost
      have hStore : S.stores[0]? = some s := by rw [hS.stores]; rfl
      simp only [serve, StateT.run_bind, StateT.run_get, pure_bind, hHost, inStore_run hStore] at hServed
      cases hServed
      refine ⟨_, ⟨?_, hS.hosts⟩, Making.calls_lead _ h⟩
      rw [hS.stores]
      rfl
  | build host schema =>
    cases hHost : S.hosts[host]? with
    | none =>
      have hMissing : S.store? host = none := by
        rw [store?, hHost]
        rfl
      simp only [serve, StateT.run_bind, StateT.run_get, pure_bind, hMissing] at hServed
      cases hServed
    | some i =>
      cases hS.host hHost
      have hStore : S.stores[0]? = some s := by rw [hS.stores]; rfl
      have hFound : S.store? host = some s := by
        rw [store?, hHost]
        exact hStore
      simp only [serve, StateT.run_bind, StateT.run_get, pure_bind, hFound, step, step_build hHost hStore] at hServed
      cases hServed
      have hLead := Making.calls_lead (schema.making J.interpretation .done) h
      rw [schema.run_making] at hLead
      refine ⟨_, ⟨?_, hS.hosts⟩, hLead⟩
      rw [hS.stores]
      rfl

theorem serveAll_spec {requests : List (Request ρ)} (hS : S.Shares s)
    (h : s.cache.entries = firsts (past.filterMap Call.kept?))
    (hServed : (serveAll J definitions requests).run S = some (calls, S')) :
    ∃ t, S'.Shares t ∧ Call.Lead past calls s t := by
  induction requests generalizing S s past calls with
  | nil =>
    cases hServed
    exact ⟨s, hS, .refl h⟩
  | cons request later ih =>
    obtain ⟨⟨first, T⟩, hFirst, hRest⟩ := Option.bind_eq_some_iff.mp hServed
    obtain ⟨⟨rest, U⟩, hRest, hEnd⟩ := Option.bind_eq_some_iff.mp hRest
    cases hEnd
    obtain ⟨t, hT, hLead⟩ := serve_spec hS h hFirst
    obtain ⟨u, hU, hLead'⟩ := ih hT hLead.entries hRest
    exact ⟨u, hU, hLead.trans hLead'⟩

end Session

/-- What a whole session keeps of the schemas that have been made on its hosts. -/
structure Session.Remembers (S : Session ρ) (calls : List (Call ρ)) (s : Store ρ) : Prop extends S.Shares s where
  lawful : ∀ past c later, calls = past ++ c :: later → c.Lawful past
  kept : ∀ c ∈ calls, c.after.cache.entries <+: s.cache.entries
  shared : ∀ c ∈ calls, ∀ key, c.key = some key → s.cache.get? key = some c.result
  same : ∀ c ∈ calls, ∀ c' ∈ calls, ∀ key, c.key = some key → c'.key = some key → c.result = c'.result
  length : s.cache.length = (calls.filterMap (·.key)).toFinset.card

theorem Session.served_remembers {out : Type} (J : Interpreter ρ out) (definitions : Definitions)
    (requests : List (Request ρ)) {calls : List (Call ρ)} {S : Session ρ}
    (hServed : (serveAll J definitions requests).run start = some (calls, S)) :
    ∃ s, S.Remembers calls s := by
  have hStart : (start : Session ρ).Shares .empty := ⟨rfl, fun _ hi => List.mem_singleton.mp hi⟩
  have hEmpty : (.empty : Store ρ).cache.entries = firsts (([] : List (Call ρ)).filterMap Call.kept?) := rfl
  obtain ⟨s, hS, hLead⟩ := serveAll_spec hStart hEmpty hServed
  have hLawful : ∀ past c later, calls = past ++ c :: later → c.Lawful past := by
    intro past c later hCalls
    have hEach := hLead.lawful
    rw [hCalls] at hEach
    exact Call.eachLawful_split hEach
  have hKept : ∀ c ∈ calls, c.after.cache.entries <+: s.cache.entries := by
    intro c hc
    obtain ⟨past, later, hCalls⟩ := List.append_of_mem hc
    have hSplit : calls = (past ++ [c]) ++ later := by
      rw [hCalls, List.append_assoc, List.singleton_append]
    rw [(hLawful past c later hCalls).entries, hLead.entries, List.nil_append, hSplit,
      List.filterMap_append (l := past ++ [c])]
    exact firsts_prefix _ _
  have hShared : ∀ c ∈ calls, ∀ key, c.key = some key → s.cache.get? key = some c.result := by
    intro c hc key hKey
    obtain ⟨past, later, hCalls⟩ := List.append_of_mem hc
    exact Cache.get?_of_prefix (hKept c hc) ((hLawful past c later hCalls).keyed key hKey)
  refine ⟨s, hS, hLawful, hKept, hShared, ?_, Call.length_eq hLead.entries⟩
  intro c hc c' hc' key hKey hKey'
  exact Option.some.inj ((hShared c hc key hKey).symm.trans (hShared c' hc' key hKey'))

/-! ## A schema that makes itself

Interpreting it makes a schema with the same key, which comes to its end first.
-/
namespace Outer

def key : SchemaKey := ⟨"Outer", some (.string "a")⟩

def interpret : Making (Guard Nat) :=
  .make (some key) (.done (.kind .string)) fun inner => .make none (.done .any) fun _ => .done (.nullable inner)

def requests : List (Request (Guard Nat)) :=
  [.make 0 (some key) interpret, .clone 0, .make 1 (some key) (.done .any), .build 1 Trees.schema]

theorem outer_is_inner : ∃ calls S s, (Session.serveAll Interpreter.guards [] requests).run .start = some (calls, S) ∧
    calls.map (·.key) = [some key, none, some key, some key, some Trees.key] ∧
    S.Remembers calls s ∧ s.cache.get? key = some (.kind .string) ∧ s.cache.length = 2 := by
  have hServed : ∃ calls S, (Session.serveAll Interpreter.guards [] requests).run .start = some (calls, S) ∧
      calls.map (·.key) = [some key, none, some key, some key, some Trees.key] ∧
      ∃ c ∈ calls, c.key = some key ∧ c.result = .kind .string :=
    ⟨_, _, rfl, rfl, _, List.mem_cons_self, rfl, rfl⟩
  obtain ⟨calls, S, hRun, hKeys, c, hc, hKey, hResult⟩ := hServed
  obtain ⟨s, hS⟩ := Session.served_remembers Interpreter.guards [] requests hRun
  refine ⟨calls, S, s, hRun, hKeys, hS, hResult ▸ hS.shared c hc key hKey, ?_⟩
  have hDistinct : calls.filterMap (·.key) = (calls.map (·.key)).filterMap id := by
    rw [List.filterMap_map]
    rfl
  rw [hS.length, hDistinct, hKeys]
  decide

end Outer

end JsonShapes
