import JsonShapes.Proofs.Accumulations.Values
import JsonShapes.Proofs.Successes
import Mathlib.Data.List.Zip

/-! # Traversals

A traversal calls its step on every item before it looks at any outcome. What it returns could as well be built
along the way, by taking each outcome together with what came before it: only the shape in which the failures are
joined is another.
-/
namespace JsonShapes.Checked
set_option autoImplicit false

variable {ε α β κ τ : Type}

/-- A result that does not tell how its failures were joined. -/
def flat : Checked ε α → Except (List ε) α
  | .ok a => .ok a
  | .error e => .error e.toList

/-! ## Outcomes taken together -/

theorem flat_map (f : α → β) (r : Checked ε α) : flat (r.map f) = (flat r).map f := by
  cases r <;> rfl

theorem flat_both_congr {all all' : Checked ε β} (h : flat all = flat all') (r : Checked ε α) :
    flat (both all r) = flat (both all' r) := by
  cases all <;> cases all' <;> cases r <;> simp_all [flat, both]

/-- One more outcome is taken together with what the ones before it come to. -/
theorem flat_collect_concat (results : List (Checked ε α)) (r : Checked ε α) :
    flat (collect (results ++ [r])) = flat ((both (collect results) r).map fun pair => pair.1 ++ [pair.2]) := by
  simp only [collect, List.filterMap_append]
  cases r with
  | ok a =>
    have hNone : [(.ok a : Checked ε α)].filterMap failures? = [] := rfl
    rw [hNone, List.append_nil]
    cases results.filterMap failures? <;> rfl
  | error e =>
    have hOne : [(.error e : Checked ε α)].filterMap failures? = [e] := rfl
    rw [hOne]
    cases results.filterMap failures? with
    | nil =>
      refine congrArg Except.error ?_
      rw [Accum.toList_joinAll]
      exact List.append_nil _
    | cons first rest =>
      refine congrArg Except.error ?_
      have hJoined := Accum.toList_joinAll first (rest ++ [e])
      rw [List.flatMap_append, List.flatMap_singleton, ← List.append_assoc, ← Accum.toList_joinAll] at hJoined
      exact hJoined

theorem flat_foldl_both (add : β → α → β) (init : β) (results : List (Checked ε α)) :
    flat (results.foldl (fun all r => (both all r).map fun pair => add pair.1 pair.2) (.ok init)) =
      flat ((collect results).map (List.foldl add init)) := by
  induction results using List.reverseRecOn with
  | nil => rfl
  | append_singleton results r ih =>
    rw [List.foldl_append, List.foldl_cons, List.foldl_nil, flat_map, flat_both_congr ih, flat_map,
      flat_collect_concat, flat_map]
    cases collect results <;> cases r <;> simp [flat, both, Except.map]

theorem toList_of_collect_eq_error {results : List (Checked ε α)} {e : Accum ε} (h : collect results = .error e) :
    e.toList = (results.filterMap failures?).flatMap Accum.toList := by
  unfold collect at h
  split at h
  · cases h
  · rename_i first rest hFailures
    cases h
    rw [hFailures, Accum.toList_joinAll, List.flatMap_cons]

/-! ## Calls -/

/-- An outcome with the key of its call: what succeeds is kept under that key. -/
def keyed (result : κ × Checked ε α) : Checked ε (κ × α) := result.2.map (result.1, ·)

/-- What has been returned under each key, or all failures. -/
def gathered (results : List (κ × Checked ε α)) : Checked ε (List (κ × α)) := collect (results.map keyed)

theorem map_both_keyed (add : κ → β → α → β) (all : Checked ε β) (k : κ) (r : Checked ε α) :
    ((both all (keyed (k, r))).map fun pair => add pair.2.1 pair.1 pair.2.2) =
      (both all r).map fun pair => add k pair.1 pair.2 := by
  cases all <;> cases r <;> rfl

theorem keyed_eq_ok_iff {result : κ × Checked ε α} {a : κ × α} :
    keyed result = .ok a ↔ result = (a.1, .ok a.2) := by
  obtain ⟨k, r⟩ := result
  obtain ⟨k', a⟩ := a
  cases r <;> simp [keyed, Except.map]

theorem gathered_eq_ok_iff {results : List (κ × Checked ε α)} {as : List (κ × α)} :
    gathered results = .ok as ↔ results = as.map fun a => (a.1, .ok a.2) := by
  rw [gathered, collect_eq_ok_iff]
  induction results generalizing as with
  | nil => cases as <;> simp
  | cons r rest ih =>
    cases as with
    | nil => simp
    | cons a as => simp only [List.map_cons, List.cons.injEq, ih, keyed_eq_ok_iff]

theorem toList_of_gathered_eq_error {results : List (κ × Checked ε α)} {e : Accum ε}
    (h : gathered results = .error e) :
    e.toList = (results.filterMap fun r => failures? r.2).flatMap Accum.toList := by
  have hFailures := toList_of_collect_eq_error h
  simpa only [List.filterMap_map, Function.comp_def, keyed, failures?_map] using hFailures

theorem collect_values (results : List (κ × Checked ε α)) :
    collect (results.map Prod.snd) = (gathered results).map (List.map Prod.snd) := by
  rw [gathered, ← collect_map, List.map_map]
  congr 2
  funext r
  obtain ⟨k, r⟩ := r
  cases r <;> rfl

section
variable {m : Type → Type} [Monad m]

/-- What each call of `f` comes to, one call after the other. -/
def outcomes (f : κ → τ → m α) (calls : List (κ × τ)) : m (List (κ × α)) :=
  calls.mapM fun call => return (call.1, ← f call.1 call.2)

/-- Each outcome is taken together with what came before it. -/
def foldBoth (add : κ → β → α → β) (init : β) (f : κ → τ → m (Checked ε α)) (calls : List (κ × τ)) :
    m (Checked ε β) :=
  calls.foldlM (fun all call => return (both all (← f call.1 call.2)).map fun pair => add call.1 pair.1 pair.2)
    (.ok init)

/-- `f`, writing down what it is called with. -/
def noting (f : κ → τ → m α) (k : κ) (x : τ) : StateT (List (κ × τ)) m α := do
  modify (· ++ [(k, x)])
  f k x

/-- The items with the positions at which they stand. -/
def positioned (items : List τ) : List (Nat × τ) := (List.range items.length).zip items

variable [LawfulMonad m]

theorem outcomes_cons (f : κ → τ → m α) (call : κ × τ) (rest : List (κ × τ)) :
    outcomes f (call :: rest) = do
      let a ← f call.1 call.2
      let as ← outcomes f rest
      return (call.1, a) :: as := by
  simp only [outcomes, List.mapM_cons, bind_assoc, pure_bind]

theorem run_outcomes_noting (f : κ → τ → m α) (calls noted : List (κ × τ)) :
    (outcomes (noting f) calls).run noted = (·, noted ++ calls) <$> outcomes f calls := by
  induction calls generalizing noted with
  | nil => simp [outcomes]
  | cons call rest ih => simp [outcomes_cons, noting, ih]

theorem foldBoth_eq (add : κ → β → α → β) (init : β) (f : κ → τ → m (Checked ε α)) (calls : List (κ × τ)) :
    foldBoth add init f calls =
      (List.foldl (fun all r => (both all (keyed r)).map fun pair => add pair.2.1 pair.1 pair.2.2) (.ok init)) <$>
        outcomes f calls := by
  unfold foldBoth
  generalize (.ok init : Checked ε β) = all
  induction calls generalizing all with
  | nil => simp [outcomes]
  | cons call rest ih =>
    simp only [List.foldlM_cons, outcomes_cons, bind_assoc, pure_bind, ih, map_eq_pure_bind, List.foldl_cons,
      map_both_keyed]

/-- Each outcome taken together with what came before it is, but for the shape in which failures are joined, what
all outcomes come to. -/
theorem flat_foldBoth (add : κ → β → α → β) (init : β) (f : κ → τ → m (Checked ε α)) (calls : List (κ × τ)) :
    flat <$> foldBoth add init f calls =
      (fun results => flat ((gathered results).map (List.foldl (fun b a => add a.1 b a.2) init))) <$>
        outcomes f calls := by
  rw [foldBoth_eq, Functor.map_map]
  congr 1
  funext results
  rw [gathered, ← flat_foldl_both, List.foldl_map]

theorem map_mapM (g : α → β) (run : τ → m α) (items : List τ) :
    List.map g <$> items.mapM run = items.mapM fun x => g <$> run x := by
  induction items with
  | nil => simp
  | cons x rest ih =>
    rw [List.mapM_cons, List.mapM_cons, ← ih]
    simp only [map_eq_pure_bind, bind_assoc, pure_bind, List.map_cons]

theorem traverseIndexed_eq (items : List τ) (f : Nat → τ → m (Checked ε α)) :
    traverseIndexed items f =
      (fun results => (gathered results).map (List.map Prod.snd)) <$> outcomes f (positioned items) := by
  have hCalls : items.zipIdx.map Prod.swap = positioned items := by
    rw [List.zipIdx_eq_zip_range', List.zip_swap, positioned, List.range_eq_range']
  have hOutcomes : List.map Prod.snd <$> outcomes f (positioned items) =
      items.zipIdx.mapM fun item => f item.2 item.1 := by
    rw [outcomes, map_mapM, ← hCalls, List.mapM_map]
    simp only [map_eq_pure_bind, bind_assoc, pure_bind, bind_pure]
    rfl
  simp only [← collect_values, traverseIndexed, ← hOutcomes, map_eq_pure_bind, bind_assoc, pure_bind]

theorem traverseKeyed_eq (entries : List (String × τ)) (f : String → τ → m (Checked ε α)) :
    traverseKeyed entries f =
      (fun results => (gathered results).map Entries.ofList) <$> outcomes f entries := by
  have hOutcomes : List.map keyed <$> outcomes f entries = entries.mapM fun e => do
      let result ← f e.1 e.2
      return result.map fun a => (e.1, a) := by
    rw [outcomes, map_mapM]
    simp only [map_eq_pure_bind, bind_assoc, pure_bind]
    rfl
  simp only [gathered, traverseKeyed, ← hOutcomes, map_eq_pure_bind, bind_assoc, pure_bind]

end

/-- A traversal calls its step once for each item, in order and with the positions (or names) that the items have,
whatever fails. It succeeds exactly if all calls do, with what they return in order, and otherwise fails with the
failures of the calls that fail, one call after the other; under a repeated name the last call gives the value and
the first one the place. Up to the shape in which failures are joined, that is each outcome taken together with
what came before it. -/
theorem traversals_fold_both {m : Type → Type} [Monad m] [LawfulMonad m] {ε α τ : Type} :
    (∀ (items : List τ) (f : Nat → τ → m (Checked ε α)),
      (∀ noted, (traverseIndexed items (noting f)).run noted =
        (·, noted ++ positioned items) <$> traverseIndexed items f) ∧
      traverseIndexed items f =
        (fun results => (gathered results).map (List.map Prod.snd)) <$> outcomes f (positioned items) ∧
      flat <$> traverseIndexed items f =
        flat <$> foldBoth (fun _ as a => as ++ [a]) [] f (positioned items)) ∧
    (∀ (entries : List (String × τ)) (f : String → τ → m (Checked ε α)),
      (∀ noted, (traverseKeyed entries (noting f)).run noted =
        (·, noted ++ entries) <$> traverseKeyed entries f) ∧
      traverseKeyed entries f =
        (fun results => (gathered results).map Entries.ofList) <$> outcomes f entries ∧
      flat <$> traverseKeyed entries f =
        flat <$> foldBoth (fun name (as : Entries α) a => as.insert name a) [] f entries) ∧
    (∀ {κ : Type} (results : List (κ × Checked ε α)),
      (∀ as, gathered results = .ok as ↔ results = as.map fun a => (a.1, .ok a.2)) ∧
      ∀ e, gathered results = .error e →
        e.toList = (results.filterMap fun r => failures? r.2).flatMap Accum.toList) ∧
    ∀ entries : List (String × α),
      (Entries.ofList entries).keys = (entries.map (·.1)).eraseDups ∧
        ∀ name, (Entries.ofList entries).get? name = entries.reverse.lookup name := by
  refine ⟨fun items f => ⟨fun noted => ?_, traverseIndexed_eq items f, ?_⟩,
    fun entries f => ⟨fun noted => ?_, traverseKeyed_eq entries f, ?_⟩,
    fun results => ⟨fun as => gathered_eq_ok_iff, fun e => toList_of_gathered_eq_error⟩,
    fun entries => ⟨Entries.keys_ofList entries, Entries.get?_ofList entries⟩⟩
  · rw [traverseIndexed_eq, traverseIndexed_eq, StateT.run_map, run_outcomes_noting, Functor.map_map,
      Functor.map_map]
  · have hAppend : List.foldl (fun (as : List α) (a : Nat × α) => as ++ [a.2]) [] = List.map Prod.snd := by
      funext as
      induction as using List.reverseRecOn with
      | nil => rfl
      | append_singleton as a ih => rw [List.foldl_append, ih, List.map_append]; rfl
    rw [flat_foldBoth, traverseIndexed_eq, Functor.map_map, hAppend]
  · rw [traverseKeyed_eq, traverseKeyed_eq, StateT.run_map, run_outcomes_noting, Functor.map_map,
      Functor.map_map]
  · rw [flat_foldBoth, traverseKeyed_eq, Functor.map_map]
    rfl

namespace Ballots

/-- Counts what a district reports, in all, unless it reports none. -/
def count (district : String) (votes : Nat) : StateM Nat (Checked String Nat) := do
  modify (· + votes)
  return if votes = 0 then .error (.single district) else .ok votes

/-- A district that reports again has its earlier report replaced, though not one without votes. -/
def reports : List (String × Nat) := [("north", 0), ("south", 4), ("north", 5), ("west", 0)]

theorem reports_counted :
    LawfulMonad (StateM Nat) ∧
      (traverseKeyed reports (noting count)).run [] = (·, [] ++ reports) <$> traverseKeyed reports count ∧
      flat <$> traverseKeyed reports count =
        flat <$> foldBoth (fun name (as : Entries Nat) a => as.insert name a) [] count reports ∧
      ∃ e, (traverseKeyed reports count).run 0 = (.error e, 9) ∧ e.toList = ["north", "west"] := by
  obtain ⟨_, hKeyed, hGathered, _⟩ := traversals_fold_both (m := StateM Nat) (ε := String) (α := Nat) (τ := Nat)
  obtain ⟨hNoted, _, hFold⟩ := hKeyed reports count
  refine ⟨inferInstance, hNoted [], hFold, _, rfl, ?_⟩
  exact (hGathered ((outcomes count reports).run 0).1).2 _ rfl

end Ballots

end JsonShapes.Checked
