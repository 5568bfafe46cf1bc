import JsonShapes.Proofs.Agreement
import JsonShapes.Proofs.Orders.Alike

/-! # Runs on alike values

Two runs are coupled if the one ends where the other does, with related results. Returning and sequencing keep
runs coupled, and the combinators are written with these two alone. None of them apart from records goes through
a value in the order of its entries, so a check that is coupled with itself on alike values makes others that are.
-/
namespace JsonShapes
set_option autoImplicit false

/-! ## Results -/

namespace Checked
variable {ε α β γ δ : Type} {R : α → β → Prop} {S : γ → δ → Prop}

/-- Both succeeded, with related values, or both failed. -/
inductive Related (R : α → β → Prop) : Except ε α → Except ε β → Prop
  | ok {a : α} {b : β} : R a b → Related R (.ok a) (.ok b)
  | error (e e' : ε) : Related R (.error e) (.error e')

namespace Related

theorem of_isOk {r : Checked ε α} {r' : Checked ε β} (h : r.isOk = r'.isOk)
    (hValues : ∀ a b, r = .ok a → r' = .ok b → R a b) : Related R r r' := by
  cases r with
  | ok a =>
    cases r' with
    | ok b => exact .ok (hValues a b rfl rfl)
    | error e => cases h
  | error e =>
    cases r' with
    | ok b => cases h
    | error e' => exact .error e e'

theorem isOk_eq {r : Checked ε α} {r' : Checked ε β} (h : Related R r r') : r.isOk = r'.isOk := by
  cases h <;> rfl

theorem ok_ok {a : α} {b : β} (h : Related R (.ok a : Except ε α) (.ok b : Except ε β)) : R a b := by
  cases h with
  | ok hab => exact hab

theorem map {r : Checked ε α} {r' : Checked ε β} (h : Related R r r') {f : α → γ} {g : β → δ}
    (hStep : ∀ a b, R a b → S (f a) (g b)) : Related S (r.map f) (r'.map g) := by
  cases h with
  | ok hab => exact .ok (hStep _ _ hab)
  | error e e' => exact .error e e'

theorem mapFailures {r : Checked ε α} {r' : Checked ε β} (h : Related R r r') (f g : Accum ε → Accum ε) :
    Related R (Checked.mapFailures f r) (Checked.mapFailures g r') := by
  cases h with
  | ok hab => exact .ok hab
  | error e e' => exact .error _ _

theorem choose {p q : Prop} [Decidable p] [Decidable q] {a b v w : Value} {expected : String} {R : Value → Value → Prop}
    (hSame : p ↔ q) (h : p → R a b) : Related R (if p then .ok a else Decoded.reject v expected : Decoded Value)
      (if q then .ok b else Decoded.reject w expected : Decoded Value) := by
  by_cases hp : p
  · rw [if_pos hp, if_pos (hSame.mp hp)]
    exact .ok (h hp)
  · rw [if_neg hp, if_neg fun hq => hp (hSame.mpr hq)]
    exact .error _ _

theorem both {r : Checked ε α} {r' : Checked ε β} {q : Checked ε γ} {q' : Checked ε δ} (h : Related R r r')
    (h' : Related S q q') :
    Related (fun p p' => R p.1 p'.1 ∧ S p.2 p'.2) (Checked.both r q) (Checked.both r' q') := by
  cases h with
  | ok hab =>
    cases h' with
    | ok hcd => exact .ok ⟨hab, hcd⟩
    | error e e' => exact .error e e'
  | error e e' =>
    cases h' with
    | ok hcd => exact .error e e'
    | error f f' => exact .error _ _

theorem collect {rs : List (Checked ε α)} {rs' : List (Checked ε β)} (h : List.Forall₂ (Related R) rs rs') :
    Related (List.Forall₂ R) (Checked.collect rs) (Checked.collect rs') := by
  apply of_isOk
  · rw [isOk_collect, isOk_collect]
    induction h with
    | nil => rfl
    | cons hHead _ ih => rw [List.all_cons, List.all_cons, hHead.isOk_eq, ih]
  · intro as bs hLeft hRight
    rw [collect_eq_ok_iff.mp hLeft, collect_eq_ok_iff.mp hRight, List.forall₂_map_left_iff,
      List.forall₂_map_right_iff] at h
    exact h.imp fun _ _ => ok_ok

theorem trans {γ : Type} {S : β → γ → Prop} {T : α → γ → Prop} {r : Checked ε α} {r' : Checked ε β}
    {r'' : Checked ε γ} (h : Related R r r') (h' : Related S r' r'') (hTrans : ∀ a b c, R a b → S b c → T a c) :
    Related T r r'' := by
  cases h with
  | ok hab =>
    cases h' with
    | ok hbc => exact .ok (hTrans _ _ _ hab hbc)
  | error e e' =>
    cases h' with
    | error _ e'' => exact .error e e''

end Related

end Checked

/-- A relation between values that have been decoded, kept by everything that puts such values together. -/
structure Likeness where
  Rel : Value → Value → Prop
  null : Rel .null .null
  arr : ∀ {xs ys : List Value}, List.Forall₂ Rel xs ys → Rel (.arr xs) (.arr ys)
  obj : ∀ {es fs : Entries Value}, es.keys.Nodup → Entries.Related Rel es fs → Rel (.obj es) (.obj fs)
  merge : ∀ {a b c d : Value}, Rel a c → Rel b d → Rel (a.merge b) (c.merge d)

namespace Likeness

def alike : Likeness where
  Rel := Value.Alike
  null := .refl trivial
  arr := .arr
  obj hNodup h := .of_perm hNodup h (.refl _)
  merge := .merge

def identical : Likeness where
  Rel := Eq
  null := rfl
  arr h := congrArg Value.arr (List.forall₂_eq_eq_eq ▸ h)
  obj _ h := congrArg Value.obj h.eq
  merge := congrArg₂ Value.merge

end Likeness

/-! ## Coupled runs -/

structure Coupling (m : Type → Type) [Monad m] where
  Holds : {α β : Type} → (α → β → Prop) → m α → m β → Prop
  pure : ∀ {α β : Type} {R : α → β → Prop} {a : α} {b : β}, R a b → Holds R (Pure.pure a) (Pure.pure b)
  bind : ∀ {α β γ δ : Type} {R : α → β → Prop} {S : γ → δ → Prop} {x : m α} {y : m β} {f : α → m γ} {g : β → m δ},
    Holds R x y → (∀ a b, R a b → Holds S (f a) (g b)) → Holds S (x >>= f) (y >>= g)

namespace Coupling
variable {m : Type → Type} [Monad m] (C : Coupling m) {α β τ υ ε : Type}

theorem mapM {T : τ → υ → Prop} {R : α → β → Prop} {xs : List τ} {ys : List υ} (h : List.Forall₂ T xs ys)
    {f : τ → m α} {g : υ → m β} (hStep : ∀ x y, T x y → C.Holds R (f x) (g y)) :
    C.Holds (List.Forall₂ R) (xs.mapM f) (ys.mapM g) := by
  -- The loops carry their results so far in reverse.
  have hLoop : ∀ {done done'}, List.Forall₂ R done done' →
      C.Holds (List.Forall₂ R) (List.mapM.loop f xs done) (List.mapM.loop g ys done') := by
    induction h with
    | nil => exact fun hDone => C.pure (List.forall₂_reverse_iff.mpr hDone)
    | cons hHead _ ih => exact fun hDone => C.bind (hStep _ _ hHead) fun a b hab => ih (.cons hab hDone)
  exact hLoop .nil

theorem traverseIndexed {T : τ → υ → Prop} {R : α → β → Prop} {xs : List τ} {ys : List υ}
    (h : List.Forall₂ T xs ys) {f : Nat → τ → m (Checked ε α)} {g : Nat → υ → m (Checked ε β)}
    (hStep : ∀ i x y, T x y → C.Holds (Checked.Related R) (f i x) (g i y)) :
    C.Holds (Checked.Related (List.Forall₂ R)) (Checked.traverseIndexed xs f) (Checked.traverseIndexed ys g) := by
  refine C.bind (C.mapM (forall₂_zipIdx h 0) ?_) fun _ _ hResults => C.pure (.collect hResults)
  rintro ⟨x, i⟩ ⟨y, j⟩ ⟨hIndex, hxy⟩
  cases hIndex
  exact hStep i x y hxy

theorem traverseKeyed {T : τ → υ → Prop} {R : α → β → Prop} {xs : Entries τ} {ys : Entries υ}
    (h : Entries.Related T xs ys) {f : String → τ → m (Checked ε α)} {g : String → υ → m (Checked ε β)}
    (hStep : ∀ name x y, T x y → C.Holds (Checked.Related R) (f name x) (g name y)) :
    C.Holds (Checked.Related fun as bs : Entries _ => as.keys.Nodup ∧ Entries.Related R as bs)
      (Checked.traverseKeyed xs f) (Checked.traverseKeyed ys g) := by
  have hEach : ∀ (e : String × τ) (e' : String × υ), e.1 = e'.1 ∧ T e.2 e'.2 →
      C.Holds (Checked.Related fun p q => p.1 = q.1 ∧ R p.2 q.2)
        (f e.1 e.2 >>= fun r => Pure.pure (r.map fun a => (e.1, a)))
        (g e'.1 e'.2 >>= fun r => Pure.pure (r.map fun b => (e'.1, b))) := by
    rintro ⟨name, x⟩ ⟨name', y⟩ ⟨hName, hxy⟩
    cases hName
    exact C.bind (hStep name x y hxy) fun _ _ hResult => C.pure (hResult.map fun _ _ hab => ⟨rfl, hab⟩)
  refine C.bind (C.mapM h hEach) fun results results' hResults => C.pure ?_
  refine (Checked.Related.collect hResults).map fun as bs hFields => ?_
  exact ⟨Entries.nodup_keys_ofList as, Entries.Related.ofList hFields⟩

/-! ## Checks -/

/-- On alike values the check is coupled with itself. -/
def Checks (L : Likeness) (check : Check m) : Prop :=
  ∀ v w : Value, v.Alike w → C.Holds (Checked.Related L.Rel) (check v) (check w)

/-- Whichever of its entries a record checks first, the run is the same. -/
def KeepsRecords (L : Likeness) : Prop := ∀ {check : Check m}, C.Checks L check → C.Checks L (Check.record check)

variable {C} {L : Likeness} {check left right : Check m}

theorem located {x y : m (Decoded Value)} (h : C.Holds (Checked.Related L.Rel) x y)
    (locate : Failures String → Failure String) : C.Holds (Checked.Related L.Rel)
      (do return Decoded.within locate (← x)) (do return Decoded.within locate (← y)) :=
  C.bind h fun _ _ hResult => C.pure (hResult.mapFailures _ _)

/-- Everything of another kind is rejected. -/
theorem Checks.of_kind {k : Kind} (hReject : ∀ v, v.kind ≠ k → ∃ e, check v = Pure.pure (.error e))
    (h : ∀ v w : Value, v.kind = k → v.Alike w → C.Holds (Checked.Related L.Rel) (check v) (check w)) :
    C.Checks L check := by
  intro v w hvw
  by_cases hKind : v.kind = k
  · exact h v w hKind hvw
  · obtain ⟨e, he⟩ := hReject v hKind
    obtain ⟨e', he'⟩ := hReject w (hvw.kind_eq ▸ hKind)
    rw [he, he']
    exact C.pure (.error e e')

theorem Checks.of_arrays (hReject : ∀ v, v.kind ≠ .array → ∃ e, check v = Pure.pure (.error e))
    (h : ∀ xs ys, (Value.arr xs).Alike (.arr ys) →
      C.Holds (Checked.Related L.Rel) (check (.arr xs)) (check (.arr ys))) : C.Checks L check := by
  refine of_kind hReject fun v w hKind hvw => ?_
  cases v with
  | arr xs =>
    obtain ⟨ys, rfl⟩ := hvw.exists_items
    exact h _ _ hvw
  | _ => cases hKind

theorem Checks.of_objects (hReject : ∀ v, v.kind ≠ .object → ∃ e, check v = Pure.pure (.error e))
    (h : ∀ es fs, (Value.obj es).Alike (.obj fs) →
      C.Holds (Checked.Related L.Rel) (check (.obj es)) (check (.obj fs))) : C.Checks L check := by
  refine of_kind hReject fun v w hKind hvw => ?_
  cases v with
  | obj es =>
    obtain ⟨fs, rfl⟩ := hvw.exists_entries
    exact h _ _ hvw
  | _ => cases hKind

namespace Checks

theorem guarded {test : Test m} (expected : String) (h : ∀ v w : Value, v.Alike w →
    C.Holds (fun passed passed' => passed = passed' ∧ (passed = true → L.Rel v w)) (test v) (test w)) :
    C.Checks L (Check.guarded test expected) := by
  intro v w hvw
  apply C.bind (h v w hvw)
  rintro passed _ ⟨rfl, hRel⟩
  cases passed with
  | true => exact C.pure (.ok (hRel rfl))
  | false => exact C.pure (.error _ _)

theorem kind {k : Kind} (h : ∀ v w : Value, v.Alike w → v.kind = k → L.Rel v w) :
    C.Checks L (Check.guarded (Test.kind k) k.expected) := by
  refine guarded k.expected fun v w hvw => C.pure ⟨by rw [hvw.kind_eq], fun hKind => ?_⟩
  exact h v w hvw (of_decide_eq_true hKind)

theorem literal {values : List Value} (h : ∀ v w : Value, v.Alike w → values.contains v = true → L.Rel v w) :
    C.Checks L (Check.literal values) :=
  fun v w hvw => C.pure (.choose (by rw [hvw.contains_eq]) (h v w hvw))

theorem refine {holds : Value → Bool} (h : C.Checks L check) (expected : String)
    (hHolds : ∀ v w : Value, v.Alike w → holds v = holds w) :
    C.Checks L (Check.andThen check fun v w => if holds v then .ok w else Decoded.reject w expected) := by
  intro v w hvw
  apply C.bind (h v w hvw)
  intro r r' hResult
  cases hResult with
  | ok hab => exact C.pure (.choose (by rw [hHolds v w hvw]) fun _ => hab)
  | error e e' => exact C.pure (.error e e')

theorem lazy (id : String) (h : C.Checks L check) : C.Checks L (Check.lazy id check) :=
  fun v w hvw => located (h v w hvw) _

theorem nullable (h : C.Checks L check) : C.Checks L (Check.nullable check) := by
  intro v w hvw
  cases v with
  | null =>
    rw [← hvw.eq_of_kind (by decide) (by decide)]
    exact C.pure (.ok L.null)
  | _ =>
    cases w with
    | null => cases hvw.kind_eq
    | _ =>
      apply C.bind (h _ _ hvw)
      intro r r' hResult
      cases hResult with
      | ok hab => exact C.pure (.ok hab)
      | error e e' => exact C.pure (.error _ _)

theorem inter (h : C.Checks L left) (h' : C.Checks L right) : C.Checks L (Check.inter left right) := by
  intro v w hvw
  apply C.bind (h v w hvw)
  intro l l' hLeft
  apply C.bind (h' v w hvw)
  intro r r' hRight
  exact C.pure ((hLeft.both hRight).map fun _ _ hBoth => L.merge hBoth.1 hBoth.2)

theorem firstOf {members : List (Check m)} (h : ∀ check ∈ members, C.Checks L check) {v w : Value}
    (hvw : v.Alike w) (start : Nat) : C.Holds (Checked.Related L.Rel)
      (Check.firstOf v start members) (Check.firstOf w start members) := by
  induction members generalizing start with
  | nil => exact C.pure (.error _ _)
  | cons check rest ih =>
    obtain ⟨hHead, hRest⟩ := List.forall_mem_cons.mp h
    apply C.bind (hHead v w hvw)
    intro r r' hResult
    cases hResult with
    | ok hab => exact C.pure (.ok hab)
    | error e e' =>
      apply C.bind (ih hRest (start + 1))
      intro q q' hOthers
      cases hOthers with
      | ok hab => exact C.pure (.ok hab)
      | error es es' => exact C.pure (.error _ _)

theorem union {members : List (Check m)} (h : ∀ check ∈ members, C.Checks L check) :
    C.Checks L (Check.union members) := by
  intro v w hvw
  apply C.bind (firstOf h hvw 0)
  intro r r' hResult
  cases hResult with
  | ok hab => exact C.pure (.ok hab)
  | error es es' => cases es <;> cases es' <;> exact C.pure (.error _ _)

/-! ## Objects and arrays -/

theorem fields {x y : m (Decoded (Entries Value))}
    (h : C.Holds (Checked.Related fun as bs : Entries _ => as.keys.Nodup ∧ Entries.Related L.Rel as bs) x y) :
    C.Holds (Checked.Related L.Rel) (do return (← x).map .obj) (do return (← y).map .obj) :=
  C.bind h fun _ _ hResult => C.pure (hResult.map fun _ _ hFields => L.obj hFields.1 hFields.2)

theorem object {props : Entries (Check m)} (h : ∀ p ∈ props, C.Checks L p.2) : C.Checks L (Check.object props) := by
  refine of_objects (fun _ hv => ⟨_, Check.object_of_kind _ hv⟩) fun es fs hObjects => ?_
  have hProps : Entries.Related (fun c d => c = d ∧ C.Checks L c) props props :=
    List.forall₂_same.mpr fun p hp => ⟨rfl, rfl, h p hp⟩
  refine fields (C.traverseKeyed hProps fun name c d hSame => ?_)
  rw [← hSame.1]
  exact located (hSame.2 _ _ (hObjects.property_getD name)) _

theorem present {props : Entries (Check m)} (h : ∀ p ∈ props, C.Checks L p.2) {es fs : Entries Value}
    (hObjects : (Value.obj es).Alike (.obj fs)) :
    Entries.Related (fun s t => (s.1 = t.1 ∧ C.Checks L s.1) ∧ s.2.Alike t.2)
      (props.filterMap fun p => (es.get? p.1).map fun raw => (p.1, p.2, raw))
      (props.filterMap fun p => (fs.get? p.1).map fun raw => (p.1, p.2, raw)) := by
  induction props with
  | nil => exact .nil
  | cons p rest ih =>
    obtain ⟨hHead, hRest⟩ := List.forall_mem_cons.mp h
    have hFound := hObjects.property p.1
    rw [List.filterMap_cons, List.filterMap_cons]
    generalize es.get? p.1 = x at hFound ⊢
    generalize fs.get? p.1 = y at hFound ⊢
    cases hFound with
    | none => exact ih hRest
    | some hxy => exact .cons ⟨rfl, ⟨rfl, hHead⟩, hxy⟩ (ih hRest)

theorem partialObject {props : Entries (Check m)} (h : ∀ p ∈ props, C.Checks L p.2) :
    C.Checks L (Check.partialObject props) := by
  refine of_objects (fun _ hv => ⟨_, Check.partialObject_of_kind _ hv⟩) fun es fs hObjects => ?_
  refine fields (C.traverseKeyed (present h hObjects) ?_)
  rintro name ⟨c, raw⟩ ⟨d, raw'⟩ ⟨⟨hSame, hCheck⟩, hRaw⟩
  cases hSame
  have hRaw : raw.Alike raw' := hRaw
  cases raw with
  | null =>
    rw [← hRaw.eq_of_kind (by decide) (by decide)]
    exact C.pure (.ok L.null)
  | _ =>
    cases raw' with
    | null => cases hRaw.kind_eq
    | _ => exact located (hCheck _ _ hRaw) _

theorem array (h : C.Checks L check) : C.Checks L (Check.array check) := by
  refine of_arrays (fun _ hv => ⟨_, Check.array_of_kind _ hv⟩) fun xs ys hArrays => ?_
  refine C.bind (C.traverseIndexed hArrays.items fun i x y hxy => located (h x y hxy) _) fun _ _ hResults => ?_
  exact C.pure (hResults.map fun _ _ => L.arr)

theorem extras_related {xs ys : List Value} (h : xs.length = ys.length) (arity : Nat) :
    Checked.Related (List.Forall₂ fun _ _ => True) (Check.extras arity xs) (Check.extras arity ys) := by
  have hDrop : (xs.drop arity).length = (ys.drop arity).length := by rw [List.length_drop, List.length_drop, h]
  have hPairs : List.Forall₂ (fun _ _ => True) (xs.drop arity) (ys.drop arity) :=
    forall₂_getElem?_iff.mpr ⟨hDrop, fun _ _ _ _ _ => trivial⟩
  apply Checked.Related.collect
  rw [List.forall₂_map_left_iff, List.forall₂_map_right_iff]
  exact (forall₂_zipIdx hPairs arity).imp fun _ _ _ => .error _ _

theorem tuple {slots : List (Check m)} (h : ∀ slot ∈ slots, C.Checks L slot) : C.Checks L (Check.tuple slots) := by
  refine of_arrays (fun _ hv => ⟨_, Check.tuple_of_kind _ hv⟩) fun xs ys hArrays => ?_
  have hSlots : List.Forall₂ (fun c d => c = d ∧ C.Checks L c) slots slots :=
    List.forall₂_same.mpr fun slot hSlot => ⟨rfl, h slot hSlot⟩
  apply C.bind (R := Checked.Related (List.Forall₂ L.Rel)) (C.traverseIndexed hSlots fun i c d hSame => ?_)
  · intro _ _ hResults
    have hExtras := extras_related hArrays.items.length_eq slots.length
    exact C.pure ((hResults.both hExtras).map fun _ _ hBoth => L.arr hBoth.1)
  · rw [← hSame.1]
    exact located (hSame.2 _ _ (hArrays.element i)) _

theorem tagged (tag : String) {members : Entries (Check m)} (h : ∀ p ∈ members, C.Checks L p.2) :
    C.Checks L (Check.tagged tag members) := by
  refine of_objects (fun _ hv => ⟨_, Check.tagged_of_kind _ _ hv⟩) fun es fs hObjects => ?_
  simp only [Check.tagged, (hObjects.property_getD tag).string?_eq]
  cases hMember : (((Entries.get? fs tag).getD .null).string?.bind (Entries.ofList members).get?) with
  | none => exact C.pure (.error _ _)
  | some check =>
    obtain ⟨name, hMem⟩ := Entries.mem_of_chosen hMember
    exact h _ hMem _ _ hObjects

end Checks

end Coupling

end JsonShapes
