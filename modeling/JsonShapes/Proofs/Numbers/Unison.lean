import JsonShapes.Decoder.Check
import JsonShapes.Proofs.Numbers.Outline
import JsonShapes.Proofs.Successes

/-! # Families of runs

The members of a family run in unison when there is one result from which each of them has its own. The
combinators return, run one thing after the other and look no further into what was decoded than an outline
shows, so families of checks that are put together in the same way are in unison as soon as their parts are.
-/
namespace JsonShapes
set_option autoImplicit false

/-- A way to say that computations have their results, under `φ`, from one result. -/
structure Unison (ι : Type) (m : Type → Type) [Monad m] where
  Holds : {α β : Type} → (ι → α → β) → (ι → m β) → Prop
  pure : ∀ {α β : Type} (φ : ι → α → β) (a : α), Holds φ fun i => Pure.pure (φ i a)
  bind : ∀ {α β γ δ : Type} {φ : ι → α → β} {ψ : ι → γ → δ} {x : ι → m β} {k : ι → β → m δ},
    Holds φ x → (∀ a, Holds ψ fun i => k i (φ i a)) → Holds ψ fun i => x i >>= k i

namespace Checked
variable {m : Type → Type} [Monad m] [LawfulMonad m] {ε α τ υ : Type}

theorem traverseIndexed_map (f : τ → υ) (items : List τ) (g : Nat → υ → m (Checked ε α)) :
    traverseIndexed (items.map f) g = traverseIndexed items fun i x => g i (f x) := by
  rw [traverseIndexed, List.zipIdx_map, List.mapM_map]
  rfl

theorem traverseKeyed_mapValues (f : τ → υ) (entries : Entries τ) (g : String → υ → m (Checked ε α)) :
    traverseKeyed (Entries.mapValues f entries) g = traverseKeyed entries fun name x => g name (f x) := by
  rw [traverseKeyed, Entries.mapValues, List.mapM_map]
  rfl

end Checked

namespace Unison
variable {ι : Type} {m : Type → Type} [Monad m] (U : Unison ι m)
variable {α β γ δ τ : Type} {φ : ι → α → β} {ψ : ι → γ → δ} {x : ι → m β}

theorem pure_of_eq {a : α} {b : ι → β} (h : ∀ i, b i = φ i a) : U.Holds φ fun i => Pure.pure (b i) := by
  rw [funext h]
  exact U.pure φ a

/-- A last step that has no effects. -/
theorem map {k : ι → β → δ} {g : α → γ} (hx : U.Holds φ x) (h : ∀ i a, k i (φ i a) = ψ i (g a)) :
    U.Holds ψ fun i => x i >>= fun b => Pure.pure (k i b) := by
  apply U.bind hx
  intro a
  exact U.pure_of_eq fun i => h i a

/-! ## Checks -/

variable (value : ι → Number → Value)

/-- The results are one outline that is filled, or failures that are the same. -/
abbrev Decodes (x : ι → m (Decoded Value)) : Prop := U.Holds (fun i => Except.map (Outline.fill (value i))) x

def Checks (c : ι → Check m) : Prop := ∀ v, U.Decodes value fun i => c i v

variable {value} {c c' : ι → Check m} {x : ι → m (Decoded Value)}
variable {as : Entries τ} {items : List τ} {g : τ → ι → Check m}

theorem same (r : Decoded Value) : U.Decodes value fun _ => Pure.pure r := by
  refine U.pure_of_eq (a := r.map .given) fun i => ?_
  cases r <;> rfl

theorem filled (o : Outline) : U.Decodes value fun i => Pure.pure (.ok (o.fill (value i))) :=
  U.pure (fun i => Except.map (Outline.fill (value i))) (Except.ok o)

theorem within (locate : Failures String → Failure String) (h : U.Decodes value x) :
    U.Decodes value fun i => x i >>= fun r => Pure.pure (Decoded.within locate r) :=
  U.map (g := Decoded.within locate) h fun _ r => Checked.mapFailures_map _ _ r

/-- The decoded fields are put together in an object. -/
theorem fields {x : ι → m (Decoded (Entries Value))}
    (h : U.Holds (fun i => Except.map (Entries.mapValues (Outline.fill (value i)))) x) :
    U.Decodes value fun i => x i >>= fun fields => Pure.pure (fields.map .obj) := by
  refine U.map (g := Except.map Outline.obj) h fun i fields => ?_
  cases fields with
  | error e => rfl
  | ok fields => exact congrArg Except.ok (Outline.fill_obj _ fields).symm

theorem lazy (id : String) (h : U.Checks value c) : U.Checks value fun i => Check.lazy id (c i) :=
  fun v => U.within _ (h v)

theorem nullable (h : U.Checks value c) : U.Checks value fun i => Check.nullable (c i) := by
  intro v
  cases v with
  | null => exact U.same (.ok .null)
  | _ =>
    apply U.bind (h _)
    intro r
    cases r with
    | ok o => exact U.filled o
    | error e => exact U.same _

theorem inter (hValue : ∀ i n, (value i n).kind ≠ .object) (h : U.Checks value c) (h' : U.Checks value c') :
    U.Checks value fun i => Check.inter (c i) (c' i) := by
  intro v
  apply U.bind (h v)
  intro l
  refine U.map (g := fun r => (Checked.both l r).map fun both => both.1.merge both.2) (h' v) fun i r => ?_
  rw [Checked.both_map]
  cases Checked.both l r with
  | error e => rfl
  | ok both => exact congrArg Except.ok (Outline.fill_merge (hValue i) both.1 both.2).symm

theorem firstOf (h : ∀ a ∈ items, U.Checks value (g a)) (v : Value) (start : Nat) :
    U.Holds (fun i => Except.map (Outline.fill (value i)))
      fun i => Check.firstOf v start (items.map fun a => g a i) := by
  induction items generalizing start with
  | nil => exact U.pure _ (Except.error [])
  | cons a rest ih =>
    obtain ⟨hHead, hRest⟩ := List.forall_mem_cons.mp h
    apply U.bind (hHead v)
    intro r
    cases r with
    | ok o => exact U.pure (fun i => Except.map (Outline.fill (value i))) (Except.ok o)
    | error e =>
      apply U.bind (ih hRest (start + 1))
      intro r
      cases r with
      | ok o => exact U.pure (fun i => Except.map (Outline.fill (value i))) (Except.ok o)
      | error es =>
        exact U.pure (fun i => Except.map (Outline.fill (value i))) (Except.error (.single (.member start e) :: es))

theorem union (h : ∀ a ∈ items, U.Checks value (g a)) :
    U.Checks value fun i => Check.union (items.map fun a => g a i) := by
  intro v
  apply U.bind (U.firstOf h v 0)
  intro r
  match r with
  | .ok o => exact U.filled o
  | .error [] => exact U.same _
  | .error (e :: es) => exact U.same _

theorem tagged (tag : String) (h : ∀ p ∈ as, U.Checks value (g p.2)) :
    U.Checks value fun i => Check.tagged tag (Entries.mapValues (fun a => g a i) as) := by
  intro v
  cases v with
  | obj entries =>
    have hMembers : ∀ i, Entries.ofList (Entries.mapValues (fun a => g a i) as) =
        Entries.mapValues (fun a => g a i) (Entries.ofList as) := fun i => (Entries.mapValues_ofList _ as).symm
    simp only [Check.tagged, hMembers, Entries.keys_mapValues]
    cases hName : ((Entries.get? entries tag).getD .null).string? with
    | none => exact U.same _
    | some name =>
      cases hMember : Entries.get? (Entries.ofList as) name with
      | none =>
        simp only [Option.bind_some, Entries.get?_mapValues, hMember, Option.map_none]
        exact U.same _
      | some a =>
        simp only [Option.bind_some, Entries.get?_mapValues, hMember, Option.map_some]
        exact h _ (Entries.mem_of_get?_ofList hMember) _
  | _ => exact U.same _

/-! ## Loops -/

variable [LawfulMonad m]

theorem mapM {xs : List τ} {f : ι → τ → m β} (h : ∀ x ∈ xs, U.Holds φ fun i => f i x) :
    U.Holds (fun i => List.map (φ i)) fun i => xs.mapM (f i) := by
  induction xs with
  | nil => exact U.pure (fun i => List.map (φ i)) []
  | cons x rest ih =>
    obtain ⟨hHead, hRest⟩ := List.forall_mem_cons.mp h
    simp only [List.mapM_cons]
    apply U.bind hHead
    intro a
    exact U.map (g := (a :: ·)) (ih hRest) fun i as => rfl

variable {ε : Type}

theorem traverseIndexed {items : List τ} {f : ι → Nat → τ → m (Checked ε β)}
    (h : ∀ position, ∀ x ∈ items, U.Holds (fun i => Except.map (φ i)) fun i => f i position x) :
    U.Holds (fun i => Except.map (List.map (φ i))) fun i => Checked.traverseIndexed items (f i) := by
  have hItems : U.Holds (fun i => List.map (Except.map (φ i)))
      fun i => items.zipIdx.mapM fun item => f i item.2 item.1 :=
    U.mapM fun item hItem => h item.2 item.1 (List.fst_mem_of_mem_zipIdx hItem)
  exact U.map (g := Checked.collect) hItems fun i rs => Checked.collect_map (φ i) rs

theorem traverseKeyed {entries : Entries τ} {f : ι → String → τ → m (Checked ε β)}
    (h : ∀ e ∈ entries, U.Holds (fun i => Except.map (φ i)) fun i => f i e.1 e.2) :
    U.Holds (fun i => Except.map (Entries.mapValues (φ i))) fun i => Checked.traverseKeyed entries (f i) := by
  have hEntries : U.Holds (fun i => List.map (Except.map fun e : String × α => (e.1, φ i e.2)))
      fun i => entries.mapM fun e => do
        let r ← f i e.1 e.2
        return r.map fun b => (e.1, b) := by
    refine U.mapM fun e he => U.map (g := Except.map fun a => (e.1, a)) (h e he) fun i r => ?_
    cases r <;> rfl
  refine U.map (g := fun rs => (Checked.collect rs).map Entries.ofList) hEntries fun i rs => ?_
  rw [Checked.collect_map]
  cases Checked.collect rs with
  | error e => rfl
  | ok fields => exact congrArg Except.ok (Entries.mapValues_ofList (φ i) fields).symm

/-! ## Checks of parts -/

theorem record (h : U.Checks value c) : U.Checks value fun i => Check.record (c i) := by
  intro v
  cases v with
  | obj entries =>
    refine U.fields (U.traverseKeyed fun e _ => ?_)
    exact U.within (.key e.1 .required) (h e.2)
  | _ => exact U.same _

theorem array (h : U.Checks value c) : U.Checks value fun i => Check.array (c i) := by
  intro v
  cases v with
  | arr items =>
    refine U.map (g := Except.map Outline.arr) (φ := fun i => Except.map (List.map (Outline.fill (value i))))
      (U.traverseIndexed fun position item _ => ?_) fun i os => ?_
    · exact U.within (.index position .optional) (h item)
    · cases os with
      | error e => rfl
      | ok os => exact congrArg Except.ok (Outline.fill_arr _ os).symm
  | _ => exact U.same _

theorem object (h : ∀ p ∈ as, U.Checks value (g p.2)) :
    U.Checks value fun i => Check.object (Entries.mapValues (fun a => g a i) as) := by
  intro v
  cases v with
  | obj entries =>
    simp only [Check.object, Checked.traverseKeyed_mapValues]
    refine U.fields (U.traverseKeyed fun p hp => ?_)
    exact U.within (.key p.1 .required) (h p hp _)
  | _ => exact U.same _

theorem partialObject (h : ∀ p ∈ as, U.Checks value (g p.2)) :
    U.Checks value fun i => Check.partialObject (Entries.mapValues (fun a => g a i) as) := by
  intro v
  cases v with
  | obj entries =>
    have hPresent : ∀ i, ((Entries.mapValues (fun a => g a i) as).filterMap fun p =>
        (Entries.get? entries p.1).map fun raw => (p.1, p.2, raw)) =
        Entries.mapValues (fun slot : τ × Value => (g slot.1 i, slot.2))
          (as.filterMap fun p => (Entries.get? entries p.1).map fun raw => (p.1, p.2, raw)) := by
      intro i
      rw [Entries.mapValues, Entries.mapValues, List.filterMap_map, List.map_filterMap]
      simp only [Option.map_map]
      rfl
    simp only [Check.partialObject, hPresent, Checked.traverseKeyed_mapValues]
    refine U.fields (U.traverseKeyed fun slot hSlot => ?_)
    obtain ⟨p, hp, hFound⟩ := List.mem_filterMap.mp hSlot
    obtain ⟨raw, _, rfl⟩ := Option.map_eq_some_iff.mp hFound
    cases raw with
    | null => exact U.same _
    | _ => exact U.within (.key p.1 .optional) (h p hp _)
  | _ => exact U.same _

theorem tuple (h : ∀ a ∈ items, U.Checks value (g a)) :
    U.Checks value fun i => Check.tuple (items.map fun a => g a i) := by
  intro v
  cases v with
  | arr raws =>
    simp only [Check.tuple, Checked.traverseIndexed_map, List.length_map]
    refine U.map (g := fun os => (Checked.both os (Check.extras items.length raws)).map fun both => .arr both.1)
      (φ := fun i => Except.map (List.map (Outline.fill (value i))))
      (U.traverseIndexed fun position a ha => ?_) fun i os => ?_
    · exact U.within (.index position .required) (h a ha _)
    · cases os with
      | error e => cases Check.extras items.length raws <;> rfl
      | ok os =>
        cases Check.extras items.length raws with
        | error e => rfl
        | ok extras => exact congrArg Except.ok (Outline.fill_arr _ os).symm
  | _ => exact U.same _

end Unison

end JsonShapes
