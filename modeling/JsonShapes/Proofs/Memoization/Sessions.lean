import JsonShapes.Proofs.Memoization.Interpreters

/-! # Sessions do not show what they remember

Whatever a session has built and run before, a schema that is built on one of its hosts and run on a value
gives the answer of the direct evaluation. The registry and the cache of a store are therefore invisible
to whoever uses the interpreters.
-/
namespace JsonShapes.Session
set_option autoImplicit false

variable {ρ out : Type} {J : Interpreter ρ out} {definitions : Definitions} {A : Assignment}
variable {S : Session ρ} {bound host i : Nat}

/-! ## What each command does -/

theorem step_no_host (h : S.hosts[host]? = none) (command : Command) :
    (stepWithin bound J definitions host command).run S = none := by
  simp only [stepWithin, StateT.run_bind, StateT.run_get, pure_bind, h]
  rfl

theorem step_fresh (h : S.hosts[host]? = some i) :
    (stepWithin bound J definitions host .fresh).run S = some (.index S.hosts.length,
      { S with stores := S.stores ++ [.empty], hosts := S.hosts ++ [S.stores.length] }) := by
  simp only [stepWithin, StateT.run_bind, StateT.run_get, pure_bind, h]
  rfl

theorem step_clone (h : S.hosts[host]? = some i) :
    (stepWithin bound J definitions host .clone).run S =
      some (.index S.hosts.length, { S with hosts := S.hosts ++ [i] }) := by
  simp only [stepWithin, StateT.run_bind, StateT.run_get, pure_bind, h]
  rfl

theorem inStore_run {α : Type} {store : Store ρ} (hStore : S.stores[i]? = some store)
    (action : StateT (Store ρ) Option α) :
    (inStore i action).run S =
      (action.run store).map fun p => (p.1, { S with stores := S.stores.set i p.2 }) := by
  change (S.stores[i]?).bind (fun store => (action.run store).bind _) = _
  rw [hStore, Option.bind_some]
  cases action.run store <;> rfl

theorem step_build (h : S.hosts[host]? = some i) {store : Store ρ} (hStore : S.stores[i]? = some store)
    (schema : Schema) :
    (stepWithin bound J definitions host (.build schema)).run S = some (.index S.slots.length,
      { S with
        stores := S.stores.set i ((schema.build J.interpretation).run store).2
        slots := S.slots ++ [⟨i, ((schema.build J.interpretation).run store).1⟩] }) := by
  simp only [stepWithin, StateT.run_bind, StateT.run_get, pure_bind, h, inStore_run hStore]
  rfl

theorem step_run (h : S.hosts[host]? = some i) {n : Nat} {slot : Slot ρ} {store : Store ρ}
    (hSlot : S.slots[n]? = some slot) (hStore : S.stores[slot.store]? = some store) (v : Value) :
    (stepWithin bound J definitions host (.run n v)).run S =
      ((J.run (Store.resolve J.interpretation definitions) bound slot.shape v).run store).map
        fun p => (.outcome p.1, { S with stores := S.stores.set slot.store p.2 }) := by
  simp only [stepWithin, StateT.run_bind, StateT.run_get, pure_bind, h, hSlot, inStore_run hStore]
  cases (J.run (Store.resolve J.interpretation definitions) bound slot.shape v).run store <;> rfl

theorem step_run_missing (h : S.hosts[host]? = some i) {n : Nat} (hSlot : S.slots[n]? = none)
    (v : Value) : (stepWithin bound J definitions host (.run n v)).run S = none := by
  simp only [stepWithin, StateT.run_bind, StateT.run_get, pure_bind, h, hSlot]
  rfl

theorem step_describe (h : S.hosts[host]? = some i) {store : Store ρ} (hStore : S.stores[i]? = some store) :
    (stepWithin bound J definitions host .describe).run S = some (.text (J.name ++ " \x7b registry: " ++
      store.registry.describe ++ ", compiled: " ++ store.cache.describe ++ " \x7d"), S) := by
  simp only [stepWithin, StateT.run_bind, StateT.run_get, pure_bind, h, store?, Option.bind_eq_bind,
    Option.bind_some, hStore]
  rfl

/-! ## What every reachable session satisfies -/

/-- The stores are sound, and each slot holds a schema as it was read in the store of the slot. -/
structure Sound (J : Interpreter ρ out) (definitions : Definitions) (A : Assignment)
    (S : Session ρ) : Prop where
  stores : ∀ store ∈ S.stores, store.Sound J.interpretation definitions A
  hosts : ∀ i ∈ S.hosts, i < S.stores.length
  slots : ∀ slot ∈ S.slots, ∃ store schema, S.stores[slot.store]? = some store ∧
    schema.Follows A ∧ store.Represents J.interpretation schema slot.shape

theorem Sound.store_of_host (hS : S.Sound J definitions A) (hHost : S.hosts[host]? = some i) :
    ∃ store, S.stores[i]? = some store ∧ store.Sound J.interpretation definitions A := by
  have hLength := hS.hosts i (List.mem_of_getElem? hHost)
  exact ⟨S.stores[i], List.getElem?_eq_getElem hLength, hS.stores _ (List.getElem_mem hLength)⟩

theorem Sound.set_store (hS : S.Sound J definitions A) {store store' : Store ρ}
    (hStore : S.stores[i]? = some store) (hSound : store'.Sound J.interpretation definitions A)
    (hExtends : store.Extends store') :
    ({ S with stores := S.stores.set i store' } : Session ρ).Sound J definitions A := by
  constructor
  · intro other hOther
    rcases List.mem_or_eq_of_mem_set hOther with hOther | rfl
    · exact hS.stores other hOther
    · exact hSound
  · intro j hj
    rw [List.length_set]
    exact hS.hosts j hj
  · intro slot hSlot
    obtain ⟨old, schema, hOld, hSchema, hRead⟩ := hS.slots slot hSlot
    by_cases hi : i = slot.store
    · have hSame : store = old := Option.some.inj (hStore.symm.trans (hi ▸ hOld))
      refine ⟨store', schema, ?_, hSchema, (hSame ▸ hRead).mono hExtends⟩
      have hLength := (List.getElem?_eq_some_iff.mp hOld).1
      rw [hi, List.getElem?_set_self hLength]
    · refine ⟨old, schema, ?_, hSchema, hRead⟩
      rw [List.getElem?_set_ne hi]
      exact hOld

theorem Sound.add_slot (hS : S.Sound J definitions A) {store : Store ρ} {schema : Schema} {r : ρ}
    (hStore : S.stores[i]? = some store) (hSchema : schema.Follows A)
    (hRead : store.Represents J.interpretation schema r) :
    ({ S with slots := S.slots ++ [⟨i, r⟩] } : Session ρ).Sound J definitions A := by
  refine ⟨hS.stores, hS.hosts, ?_⟩
  intro slot hSlot
  rcases List.mem_append.mp hSlot with hSlot | hSlot
  · exact hS.slots slot hSlot
  · cases List.mem_singleton.mp hSlot
    exact ⟨store, schema, hStore, hSchema, hRead⟩

theorem sound_start : (start : Session ρ).Sound J definitions A where
  stores store hStore := by
    cases List.mem_singleton.mp hStore
    exact Store.sound_empty definitions A
  hosts i hi := by
    cases List.mem_singleton.mp hi
    exact Nat.zero_lt_one
  slots slot hSlot := by cases hSlot

theorem Sound.add_host (hS : S.Sound J definitions A) (hi : i < S.stores.length) :
    ({ S with hosts := S.hosts ++ [i] } : Session ρ).Sound J definitions A := by
  refine ⟨hS.stores, ?_, hS.slots⟩
  intro j hj
  rcases List.mem_append.mp hj with hj | hj
  · exact hS.hosts j hj
  · cases List.mem_singleton.mp hj
    exact hi

theorem Sound.add_store (hS : S.Sound J definitions A) :
    ({ S with stores := S.stores ++ [.empty] } : Session ρ).Sound J definitions A := by
  constructor
  · intro store hStore
    rcases List.mem_append.mp hStore with hStore | hStore
    · exact hS.stores store hStore
    · cases List.mem_singleton.mp hStore
      exact Store.sound_empty definitions A
  · intro i hi
    rw [List.length_append]
    exact Nat.lt_add_right _ (hS.hosts i hi)
  · intro slot hSlot
    obtain ⟨store, schema, hStore, hSlot⟩ := hS.slots slot hSlot
    refine ⟨store, schema, ?_, hSlot⟩
    rw [List.getElem?_append_left (List.getElem?_eq_some_iff.mp hStore).1]
    exact hStore

variable {evaluate : Definitions → Nat → Schema → Value → Option out}

/-- Running a slot gives what the evaluation of its schema gives, and leaves a sound session. -/
theorem Sound.run (hJ : J.Faithful evaluate) (hDefinitions : definitions.Follow A)
    (hS : S.Sound J definitions A) (hHost : S.hosts[host]? = some i) {n : Nat} {slot : Slot ρ}
    (hSlot : S.slots[n]? = some slot) {store : Store ρ} (hStore : S.stores[slot.store]? = some store)
    {schema : Schema} (hSchema : schema.Follows A)
    (hRead : store.Represents J.interpretation schema slot.shape) (bound : Nat) (v : Value) :
    ((stepWithin bound J definitions host (.run n v)).run S).map Prod.fst =
        (evaluate definitions bound schema v).map Answer.outcome ∧
      ∀ answer S', (stepWithin bound J definitions host (.run n v)).run S = some (answer, S') →
        S'.Sound J definitions A := by
  have hSound := hS.stores store (List.mem_of_getElem? hStore)
  have hAnswers := hJ hDefinitions hSchema hRead bound v store hSound (Store.Extends.refl store)
  rw [step_run hHost hSlot hStore]
  cases hOutcome : evaluate definitions bound schema v with
  | none =>
    rw [hOutcome] at hAnswers
    have hRun : (J.run (Store.resolve J.interpretation definitions) bound slot.shape v).run store =
        none := hAnswers
    rw [hRun]
    constructor
    · rfl
    · intro answer S' hNone
      cases hNone
  | some o =>
    rw [hOutcome] at hAnswers
    obtain ⟨store', hRun, hSound', hExtends⟩ := hAnswers
    rw [hRun]
    constructor
    · rfl
    · intro answer S' hSome
      cases hSome
      exact hS.set_store hStore hSound' hExtends

theorem Sound.build (hS : S.Sound J definitions A) (hHost : S.hosts[host]? = some i)
    {schema : Schema} (hSchema : schema.Follows A) :
    ∃ S' r store, (stepWithin bound J definitions host (.build schema)).run S = some (.index S.slots.length, S') ∧
      S'.Sound J definitions A ∧ S'.hosts = S.hosts ∧ S'.slots[S.slots.length]? = some ⟨i, r⟩ ∧
      S'.stores[i]? = some store ∧ store.Represents J.interpretation schema r := by
  obtain ⟨store, hStore, hSound⟩ := hS.store_of_host hHost
  obtain ⟨hSound', hExtends, hRead⟩ :=
    Store.build_keeps J.interpretation definitions schema hSchema store hSound trivial
  have hReplaced := hS.set_store hStore hSound' hExtends
  have hLength := (List.getElem?_eq_some_iff.mp hStore).1
  have hStore' := List.getElem?_set_self (a := ((schema.build J.interpretation).run store).2) hLength
  refine ⟨_, _, _, step_build hHost hStore schema, hReplaced.add_slot hStore' hSchema hRead, rfl, ?_,
    hStore', hRead⟩
  exact List.getElem?_concat_length

def Command.Follows (A : Assignment) : Command → Prop
  | .build schema => schema.Follows A
  | _ => True

theorem Sound.step (hJ : J.Faithful evaluate) (hDefinitions : definitions.Follow A)
    (hS : S.Sound J definitions A) {command : Command} (hCommand : Command.Follows A command)
    {answer : Answer out} {S' : Session ρ}
    (hStep : (stepWithin bound J definitions host command).run S = some (answer, S')) :
    S'.Sound J definitions A := by
  cases hHost : S.hosts[host]? with
  | none =>
    rw [step_no_host hHost] at hStep
    cases hStep
  | some i =>
    cases command with
    | fresh =>
      rw [step_fresh hHost] at hStep
      cases hStep
      exact hS.add_store.add_host (by simp)
    | clone =>
      rw [step_clone hHost] at hStep
      cases hStep
      exact hS.add_host (hS.hosts i (List.mem_of_getElem? hHost))
    | build schema =>
      obtain ⟨S'', _, _, hBuild, hSound, _⟩ := hS.build hHost hCommand
      rw [hBuild] at hStep
      cases hStep
      exact hSound
    | run n v =>
      cases hSlot : S.slots[n]? with
      | none =>
        rw [step_run_missing hHost hSlot] at hStep
        cases hStep
      | some slot =>
        obtain ⟨store, schema, hStore, hSchema, hRead⟩ := hS.slots slot (List.mem_of_getElem? hSlot)
        exact (hS.run hJ hDefinitions hHost hSlot hStore hSchema hRead bound v).2 answer S' hStep
    | describe =>
      obtain ⟨store, hStore, _⟩ := hS.store_of_host hHost
      rw [step_describe hHost hStore] at hStep
      cases hStep
      exact hS

/-- The sessions that commands lead to from the one that has done nothing, each under a bound of its own. -/
inductive Reachable (J : Interpreter ρ out) (definitions : Definitions) (A : Assignment) :
    Session ρ → Prop
  | start : Reachable J definitions A start
  | step {S S' : Session ρ} {bound host : Nat} {command : Command} {answer : Answer out} :
    Reachable J definitions A S → Command.Follows A command →
    (stepWithin bound J definitions host command).run S = some (answer, S') → Reachable J definitions A S'

theorem Reachable.sound (hJ : J.Faithful evaluate) (hDefinitions : definitions.Follow A)
    (h : S.Reachable J definitions A) : S.Sound J definitions A := by
  induction h with
  | start => exact sound_start
  | step _ hCommand hStep ih => exact ih.step hJ hDefinitions hCommand hStep

/-- Builds a schema on a host and runs the slot that it was put in. -/
def ask (bound : Nat) (J : Interpreter ρ out) (definitions : Definitions) (host : Nat) (schema : Schema)
    (v : Value) : StateT (Session ρ) Option (Answer out) := do
  match ← stepWithin bound J definitions host (.build schema) with
  | .index slot => stepWithin bound J definitions host (.run slot v)
  | _ => failure

theorem Sound.ask_eq (hJ : J.Faithful evaluate) (hDefinitions : definitions.Follow A)
    (hS : S.Sound J definitions A) (hHost : host < S.hosts.length) {schema : Schema}
    (hSchema : schema.Follows A) (bound : Nat) (v : Value) :
    (ask bound J definitions host schema v).run' S =
      (evaluate definitions bound schema v).map Answer.outcome := by
  obtain ⟨i, hHost⟩ : ∃ i, S.hosts[host]? = some i := ⟨_, List.getElem?_eq_getElem hHost⟩
  obtain ⟨S', r, store, hBuild, hSound, hHosts, hSlot, hStore, hRead⟩ := hS.build hHost hSchema
  rw [← hHosts] at hHost
  have hRun := (hSound.run hJ hDefinitions hHost hSlot hStore hSchema hRead bound v).1
  rw [ask, StateT.run'_eq, StateT.run_bind, hBuild]
  exact hRun

/-- Whatever two sessions have done before, a schema that is built and run in both gives the same
answer, and this is what the evaluation without any store gives under the same bound. -/
theorem answer_independent_of_history (role : Role) (hDefinitions : definitions.Follow A)
    {S S' : Session role.Shape} (hReach : S.Reachable role.interpreter definitions A)
    (hReach' : S'.Reachable role.interpreter definitions A) {host host' : Nat}
    (hHost : host < S.hosts.length) (hHost' : host' < S'.hosts.length) {schema : Schema}
    (hSchema : schema.Follows A) (bound : Nat) (v : Value) :
    (ask bound role.interpreter definitions host schema v).run' S =
        (ask bound role.interpreter definitions host' schema v).run' S' ∧
      (ask bound role.interpreter definitions host schema v).run' S =
        (role.evaluate definitions bound schema v).map Answer.outcome := by
  have hSound := hReach.sound role.faithful hDefinitions
  have hSound' := hReach'.sound role.faithful hDefinitions
  have hLeft := hSound.ask_eq role.faithful hDefinitions hHost hSchema bound v
  have hRight := hSound'.ask_eq role.faithful hDefinitions hHost' hSchema bound v
  exact ⟨hLeft.trans hRight.symm, hLeft⟩

/-! ## A session with trees -/

def treeGuard : Guard Nat := Trees.body.unfold (.comap .guarding fun _ => 0)

/-- The trees have been built. -/
def planted : Session (Guard Nat) where
  stores := [⟨⟨[⟨"Tree", 1, "Tree", none⟩], []⟩, ⟨[(Trees.key, treeGuard)]⟩, [some Trees.key]⟩]
  hosts := [0]
  slots := [⟨0, treeGuard⟩]

/-- A tree has been tested, and the host has been cloned. -/
def grown : Session (Guard Nat) where
  stores := [⟨⟨[⟨"Tree", 1, "Tree", some treeGuard⟩], [0]⟩, ⟨[(Trees.key, treeGuard)]⟩, [some Trees.key]⟩]
  hosts := [0, 0]
  slots := [⟨0, treeGuard⟩]

def stump : Value := .obj [("label", .str "a"), ("rest", .arr [.obj []])]

theorem grown_reachable : grown.Reachable Interpreter.guards Trees.definitions Trees.assignment := by
  have hBuild : (stepWithin 2 Interpreter.guards Trees.definitions 0 (.build Trees.schema)).run start =
      some (.index 0, planted) := rfl
  have hRun : (stepWithin 2 Interpreter.guards Trees.definitions 0 (.run 0 stump)).run planted =
      some (.outcome false, { grown with hosts := [0] }) := rfl
  have hClone : (stepWithin 2 Interpreter.guards Trees.definitions 0 .clone).run { grown with hosts := [0] } =
      some (.index 1, grown) := rfl
  have hFollows : Command.Follows Trees.assignment (.build Trees.schema) := Trees.schema_follows
  have hPlanted := Reachable.start.step hFollows hBuild
  refine (hPlanted.step ?_ hRun).step ?_ hClone <;> exact trivial

theorem stump_answer_independent_of_history :
    (ask 1 Interpreter.guards Trees.definitions 0 Trees.schema stump).run' start =
        (ask 1 Interpreter.guards Trees.definitions 1 Trees.schema stump).run' grown ∧
      (ask 1 Interpreter.guards Trees.definitions 0 Trees.schema stump).run' start =
        (Trees.schema.accepts Trees.definitions 1 stump).map Answer.outcome :=
  answer_independent_of_history .guarding Trees.definitions_follow .start grown_reachable
    (by decide) (by decide) Trees.schema_follows 1 stump

end JsonShapes.Session
