import JsonShapes.Proofs.Lists
import JsonShapes.Proofs.Reports.Rejections
import Mathlib.Data.Vector.Basic

/-! # Alternatives

A union, a chain of alternatives and a nullable check all try one check after the other until one succeeds. Where
none does, they differ in how the failures are put together: a union numbers its members and joins them in rounds,
a chain joins each failure with those of the checks after it.
-/
namespace JsonShapes
set_option autoImplicit false

namespace Check
variable {m : Type → Type} [Monad m]

/-- Each check is the alternative to the one before it. -/
def chain : Check m → List (Check m) → Check m
  | check, [] => check
  | check, next :: rest => alt check (chain next rest)

/-- Tries one check after the other until one succeeds; if none does, each has failed. -/
def attempts (v : Value) :
    (members : List (Check m)) → m (Except (List.Vector (Failures String) members.length) Value)
  | [] => return .error .nil
  | check :: rest => do
    match ← check v with
    | .ok w => return .ok w
    | .error e => return (← attempts v rest).mapError (.cons e)

end Check

/-! ## Failures of alternatives -/

namespace Failures

/-- The failures of each member under its number. -/
def numbered (start : Nat) (es : List (Failures String)) : List (Failures String) :=
  (es.zipIdx start).map fun e => .single (.member e.2 e.1)

/-- Each is joined with what comes after it. -/
def nested : Failures String → List (Failures String) → Failures String
  | e, [] => e
  | e, e' :: rest => .join e (nested e' rest)

/-- The number of the member for each rejection in turn. -/
def branches (start : Nat) (es : List (Failures String)) : List Nat :=
  (es.zipIdx start).flatMap fun e => List.replicate e.1.rejections.length e.2

theorem numbered_cons (start : Nat) (e : Failures String) (rest : List (Failures String)) :
    numbered start (e :: rest) = .single (.under (.member start) e) :: numbered (start + 1) rest := rfl

theorem branches_cons (start : Nat) (e : Failures String) (rest : List (Failures String)) :
    branches start (e :: rest) = List.replicate e.rejections.length start ++ branches (start + 1) rest := rfl

theorem rejections_nested (e : Failures String) (es : List (Failures String)) :
    (nested e es).rejections = (e :: es).flatMap rejections := by
  induction es generalizing e with
  | nil => rw [nested, List.flatMap_singleton]
  | cons e' rest ih =>
    rw [nested, rejections_join, ih]
    rfl

theorem mem_branches_iff {start i : Nat} {es : List (Failures String)} :
    i ∈ branches start es ↔ start ≤ i ∧ i < start + es.length := by
  induction es generalizing start with
  | nil => simp [branches]
  | cons e rest ih =>
    -- A failure has at least one rejection, so no member is missing.
    have hSome : e.rejections.length ≠ 0 := by
      rw [Ne, List.length_eq_zero_iff]
      exact rejectionsAt_ne_nil e [] []
    rw [branches_cons, List.mem_append, List.mem_replicate, ih, List.length_cons]
    omega

theorem pairwise_branches (start : Nat) (es : List (Failures String)) :
    (branches start es).Pairwise (· ≤ ·) := by
  induction es generalizing start with
  | nil => exact .nil
  | cons e rest ih =>
    rw [branches_cons, List.pairwise_append]
    refine ⟨List.pairwise_replicate.mpr (.inr (Nat.le_refl _)), ih _, ?_⟩
    intro i hi j hj
    rw [(List.mem_replicate.mp hi).2]
    exact Nat.le_of_succ_le (mem_branches_iff.mp hj).1

theorem length_branches (start : Nat) (es : List (Failures String)) :
    (branches start es).length = (es.flatMap rejections).length := by
  induction es generalizing start with
  | nil => rfl
  | cons e rest ih =>
    rw [branches_cons, List.flatMap_cons, List.length_append, List.length_append, List.length_replicate, ih]

/-- Without the numbers of the members, the failures of a union are those of the members one after the other. -/
theorem rejections_numbered (start : Nat) (es : List (Failures String)) :
    (numbered start es).flatMap rejections =
      List.zipWith (fun i => Rejection.under (.member i)) (branches start es) (es.flatMap rejections) := by
  induction es generalizing start with
  | nil => rfl
  | cons e rest ih =>
    rw [branches_cons, numbered_cons, List.flatMap_cons, List.flatMap_cons,
      List.zipWith_append List.length_replicate, zipWith_replicate_left, ih, rejections_under]

end Failures

/-! ## Trying one check after the other -/

namespace Check

/-- A union numbers the failures of its members. -/
def united {n : Nat} (v : Value) : Except (List.Vector (Failures String) n) Value → Decoded Value
  | .ok w => .ok w
  | .error es =>
    match Failures.numbered 0 es.toList with
    | [] => Decoded.reject v "never"
    | e :: rest => .error (.joinAll e rest)

/-- A chain joins them as they are. -/
def chained {n : Nat} : Except (List.Vector (Failures String) (n + 1)) Value → Decoded Value
  | .ok w => .ok w
  | .error es => .error (Failures.nested es.head es.tail.toList)

/-! Without effects, what succeeds is the first that does. -/

theorem run_attempts_cons (v : Value) (first : Check Id) (rest : List (Check Id)) :
    (attempts v (first :: rest)).run = match (first v).run with
      | .ok w => .ok w
      | .error e => (attempts v rest).run.mapError (.cons e) := by
  change (match (first v).run with
    | .ok w => _
    | .error e => _) = _
  cases (first v).run <;> rfl

theorem attempts_eq_ok_iff {members : List (Check Id)} {v w : Value} :
    (attempts v members).run = .ok w ↔
      ∃ before check after, members = before ++ check :: after ∧ (∀ c ∈ before, ∃ e, (c v).run = .error e) ∧
        (check v).run = .ok w := by
  induction members with
  | nil => simp [attempts]
  | cons first rest ih =>
    rw [run_attempts_cons]
    cases hFirst : (first v).run with
    | ok x =>
      constructor
      · intro h
        cases h
        exact ⟨[], first, rest, rfl, List.forall_mem_nil _, hFirst⟩
      · rintro ⟨before, check, after, hSplit, hBefore, hCheck⟩
        cases before with
        | nil =>
          cases hSplit
          cases hFirst.symm.trans hCheck
          rfl
        | cons c before =>
          cases hSplit
          obtain ⟨e, hError⟩ := hBefore first List.mem_cons_self
          cases hFirst.symm.trans hError
    | error e =>
      have hRest : (attempts v rest).run.mapError (List.Vector.cons e) = .ok w ↔ (attempts v rest).run = .ok w := by
        cases (attempts v rest).run <;> simp [Except.mapError]
      refine Iff.trans hRest (Iff.trans ih ?_)
      constructor
      · rintro ⟨before, check, after, rfl, hBefore, hCheck⟩
        exact ⟨first :: before, check, after, rfl, List.forall_mem_cons.mpr ⟨⟨e, hFirst⟩, hBefore⟩, hCheck⟩
      · rintro ⟨before, check, after, hSplit, hBefore, hCheck⟩
        cases before with
        | nil =>
          cases hSplit
          cases hFirst.symm.trans hCheck
        | cons c before =>
          cases hSplit
          exact ⟨before, check, after, rfl, (List.forall_mem_cons.mp hBefore).2, hCheck⟩

theorem attempts_eq_error_iff {members : List (Check Id)} {v : Value}
    {es : List.Vector (Failures String) members.length} :
    (attempts v members).run = .error es ↔ members.map (fun c => (c v).run) = es.toList.map .error := by
  induction members with
  | nil =>
    rw [es.eq_nil]
    simp [attempts]
  | cons first rest ih =>
    obtain ⟨e', es, rfl⟩ := es.exists_eq_cons
    rw [run_attempts_cons, List.Vector.toList_cons, List.map_cons, List.map_cons, List.cons.injEq, ← ih]
    cases (first v).run with
    | ok w => simp
    | error e =>
      cases (attempts v rest).run <;> simp [Except.mapError, List.Vector.eq_cons_iff]

variable {m : Type → Type} [Monad m] [LawfulMonad m]

theorem firstOf_eq_attempts (v : Value) (start : Nat) (members : List (Check m)) :
    firstOf v start members =
      (Except.mapError fun es => Failures.numbered start es.toList) <$> attempts v members := by
  induction members generalizing start with
  | nil =>
    rw [firstOf, attempts, map_pure]
    rfl
  | cons check rest ih =>
    rw [firstOf, attempts, map_bind]
    congr 1
    funext r
    cases r with
    | ok w =>
      rw [map_pure]
      rfl
    | error e =>
      simp only [ih, map_eq_pure_bind, bind_assoc, pure_bind]
      congr 1
      funext outcome
      cases outcome <;> rfl

theorem union_eq_attempts (members : List (Check m)) (v : Value) :
    union members v = united v <$> attempts v members := by
  rw [union, firstOf_eq_attempts, map_eq_pure_bind, map_eq_pure_bind, bind_assoc]
  congr 1
  funext outcome
  rw [pure_bind]
  cases outcome with
  | ok w => rfl
  | error es =>
    rw [united, Except.mapError]
    cases Failures.numbered 0 es.toList <;> rfl

theorem chain_eq_attempts (first : Check m) (rest : List (Check m)) (v : Value) :
    chain first rest v = chained <$> attempts v (first :: rest) := by
  induction rest generalizing first with
  | nil =>
    rw [chain, attempts, map_bind]
    conv_lhs => rw [← bind_pure (first v)]
    congr 1
    funext r
    cases r with
    | ok w =>
      rw [map_pure]
      rfl
    | error e =>
      simp only [attempts, map_eq_pure_bind, pure_bind]
      rfl
  | cons next rest ih =>
    rw [chain, alt, attempts, map_bind]
    congr 1
    funext r
    cases r with
    | ok w =>
      rw [map_pure]
      rfl
    | error e =>
      simp only [ih, map_eq_pure_bind, bind_assoc, pure_bind]
      congr 1
      funext outcome
      cases outcome with
      | ok w => rfl
      | error es =>
        obtain ⟨e', es, rfl⟩ := es.exists_eq_cons
        rfl

omit [LawfulMonad m] in
theorem literal_null (v : Value) :
    literal (m := m) [.null] v = pure (match v with
      | .null => .ok .null
      | v => Decoded.reject v "null") := by
  cases v <;> rfl

/-- Null is the first member, and what accepts all else is the second. -/
theorem nullable_eq_union (check : Check m) : nullable check = union [literal [.null], check] := by
  funext v
  rw [union, firstOf, literal_null, pure_bind]
  cases v with
  | null => simp only [nullable, pure_bind]
  | _ =>
    rw [nullable]
    · simp only [firstOf, bind_assoc, Decoded.reject]
      congr 1
      funext r
      cases r with
      | ok w => simp only [pure_bind]
      | error e => simp only [pure_bind, Accum.joinAll, Accum.pairUp]
    · rintro ⟨⟩

end Check

/-- A union and a chain of the same checks run the same of them and give what the first gives that succeeds. Where
none does, the union fails with the same rejections as the chain, but for a step at the front of each that leads into
a member: into the first of them to begin with, then into the next, and into each at least once. A nullable check is
a union with null. -/
theorem alternatives_agree {m : Type → Type} [Monad m] [LawfulMonad m] :
    (∀ (first : Check m) (rest : List (Check m)) (v : Value),
      ∃ asUnion asChain : Except (List.Vector (Failures String) (rest.length + 1)) Value → Decoded Value,
        Check.union (first :: rest) v = asUnion <$> Check.attempts v (first :: rest) ∧
        Check.chain first rest v = asChain <$> Check.attempts v (first :: rest) ∧
        (∀ w, asUnion (.ok w) = .ok w ∧ asChain (.ok w) = .ok w) ∧
        ∀ es, ∃ (u c : Failures String) (leading : List Nat),
          asUnion (.error es) = .error u ∧ asChain (.error es) = .error c ∧
          leading.Pairwise (· ≤ ·) ∧ (∀ i, i ∈ leading ↔ i ≤ rest.length) ∧
          leading.length = c.rejections.length ∧
          u.rejections = List.zipWith (fun i => Rejection.under (.member i)) leading c.rejections) ∧
    (∀ (members : List (Check Id)) (v : Value),
      (∀ w, (Check.attempts v members).run = .ok w ↔
        ∃ before check after, members = before ++ check :: after ∧ (∀ c ∈ before, ∃ e, (c v).run = .error e) ∧
          (check v).run = .ok w) ∧
      ∀ es, (Check.attempts v members).run = .error es ↔ members.map (fun c => (c v).run) = es.toList.map .error) ∧
    ∀ check : Check m, Check.nullable check = Check.union [Check.literal [.null], check] := by
  refine ⟨fun first rest v => ?_,
    fun members v => ⟨fun w => Check.attempts_eq_ok_iff, fun es => Check.attempts_eq_error_iff⟩,
    Check.nullable_eq_union⟩
  refine ⟨Check.united v, Check.chained, Check.union_eq_attempts _ v, Check.chain_eq_attempts first rest v,
    fun w => ⟨rfl, rfl⟩, fun es => ?_⟩
  obtain ⟨e, es, rfl⟩ := es.exists_eq_cons
  refine ⟨_, _, Failures.branches 0 (e :: es.toList), rfl, rfl, Failures.pairwise_branches 0 _, fun i => ?_, ?_, ?_⟩
  · rw [Failures.mem_branches_iff, List.length_cons, es.toList_length]
    omega
  · rw [Failures.length_branches, Failures.rejections_nested]
    rfl
  · rw [Failures.rejections_nested, Failures.rejections_joinAll]
    exact Failures.rejections_numbered 0 (e :: es.toList)

namespace Fares

/-- A check that counts how often it is run. -/
def counted (check : Check Id) : Check (StateM Nat) := fun v => do
  modify (· + 1)
  return (check v).run

def ticket : Check (StateM Nat) := counted (Check.kind .string)

/-- Two ways of their own, so two rejections. -/
def fare : Check (StateM Nat) := counted (Check.nullable (Check.kind .number))

theorem nothing_paid :
    LawfulMonad (StateM Nat) ∧
      ∃ (u c : Failures String) (leading : List Nat),
        (Check.union [ticket, fare] (.bool true)).run 0 = (.error u, 2) ∧
        (Check.chain ticket [fare] (.bool true)).run 0 = (.error c, 2) ∧
        leading.Pairwise (· ≤ ·) ∧ (∀ i, i ∈ leading ↔ i ≤ 1) ∧ leading.length = c.rejections.length ∧
        u.rejections = List.zipWith (fun i => Rejection.under (.member i)) leading c.rejections := by
  obtain ⟨asUnion, asChain, hUnion, hChain, _, hFailed⟩ :=
    (alternatives_agree (m := StateM Nat)).1 ticket [fare] (.bool true)
  have hAttempts : (Check.attempts (.bool true) [ticket, fare]).run 0 = (.error ⟨[_, _], rfl⟩, 2) := rfl
  obtain ⟨u, c, leading, hu, hc, hLeading⟩ := hFailed _
  refine ⟨inferInstance, u, c, leading, ?_, ?_, hLeading⟩
  · rw [hUnion, StateT.run_map, hAttempts]
    exact congrArg (·, 2) hu
  · rw [hChain, StateT.run_map, hAttempts]
    exact congrArg (·, 2) hc

end Fares

end JsonShapes
