import JsonShapes.Proofs.Memoization.Interpreters

/-! # Decoders agree with guards

A check runs all its parts and keeps every failure, a test stops as soon as the answer is known. They
agree on a value when both come to an end there only if the check succeeds exactly where the test says
yes. Nothing is said about a value where one of them goes on for ever, since the other may well have
stopped before.
-/
namespace JsonShapes
set_option autoImplicit false

namespace Checked
variable {ε α β τ : Type}

@[simp] theorem isOk_map (f : α → β) (r : Checked ε α) : (r.map f).isOk = r.isOk := by
  cases r <;> rfl

@[simp] theorem isOk_mapFailures (f : Accum ε → Accum ε) (r : Checked ε α) :
    (mapFailures f r).isOk = r.isOk := by cases r <;> rfl

@[simp] theorem isOk_within (locate : Failures String → Failure String) (r : Decoded α) :
    (Decoded.within locate r).isOk = r.isOk := isOk_mapFailures _ r

@[simp] theorem isOk_both (r : Checked ε α) (r' : Checked ε β) :
    (both r r').isOk = (r.isOk && r'.isOk) := by
  cases r <;> cases r' <;> rfl

theorem isOk_choose (p : Prop) [Decidable p] (w v : Value) (expected : String) :
    (if p then .ok w else Decoded.reject v expected : Decoded Value).isOk = decide p := by
  by_cases hp : p
  · rw [if_pos hp, decide_eq_true hp]
    rfl
  · rw [if_neg hp, decide_eq_false hp]
    rfl

theorem isOk_collect (rs : List (Checked ε α)) : (collect rs).isOk = rs.all (·.isOk) := by
  have hFailures : rs.filterMap failures? = [] ↔ rs.all (·.isOk) = true := by
    rw [List.filterMap_eq_nil_iff, List.all_eq_true]
    apply forall₂_congr
    intro r _
    cases r <;> simp [failures?, Except.isOk, Except.toBool]
  unfold collect
  cases h : rs.filterMap failures? with
  | nil => exact (hFailures.mp h).symm
  | cons first rest =>
    have hNot : ¬rs.all (·.isOk) = true := fun hAll => by
      rw [hFailures.mpr hAll] at h
      cases h
    exact (Bool.eq_false_iff.mpr hNot).symm

theorem isOk_iff (r : Checked ε α) : r.isOk = true ↔ ∃ a, r = .ok a := by
  cases r with
  | ok a => exact ⟨fun _ => ⟨a, rfl⟩, fun _ => rfl⟩
  | error e => exact ⟨fun h => (Bool.noConfusion h), fun ⟨_, h⟩ => nomatch h⟩

theorem traverseIndexed_eq_some {items : List τ} {f : Nat → τ → Option (Checked ε α)}
    {r : Checked ε (List α)} (h : traverseIndexed items f = some r) :
    ∃ rs, items.zipIdx.mapM (fun item => f item.2 item.1) = some rs ∧ r = collect rs := by
  obtain ⟨rs, hRuns, hr⟩ := Option.bind_eq_some_iff.mp h
  exact ⟨rs, hRuns, (Option.some.inj hr).symm⟩

theorem traverseKeyed_eq_some {entries : List (String × τ)} {f : String → τ → Option (Checked ε α)}
    {r : Checked ε (Entries α)} (h : traverseKeyed entries f = some r) :
    ∃ rs, entries.mapM (fun e => (f e.1 e.2).map fun result => result.map fun a => (e.1, a)) = some rs ∧
      r = (collect rs).map Entries.ofList := by
  obtain ⟨rs, hRuns, hr⟩ := Option.bind_eq_some_iff.mp h
  refine ⟨rs, ?_, (Option.some.inj hr).symm⟩
  rw [← hRuns]
  congr 1
  funext e
  cases f e.1 e.2 <;> rfl

end Checked

/-- The result is the one that the answer promises. -/
def Matches {ε α : Type} (result : Option (Checked ε α)) (answer : Option Bool) : Prop :=
  ∀ r b, result = some r → answer = some b → r.isOk = b

namespace Matches
variable {ε α β τ υ : Type}

theorem of_isOk_eq {r : Checked ε α} {b : Bool} (h : r.isOk = b) : Matches (some r) (some b) := by
  intro _ _ hr hb
  cases hr
  cases hb
  exact h

theorem of_isOk (r : Checked ε α) : Matches (some r) (some r.isOk) := of_isOk_eq rfl

theorem after {result : Option (Checked ε α)} {answer : Option Bool} (h : Matches result answer)
    {f : Checked ε α → Option (Checked ε β)} (hf : ∀ r r', f r = some r' → r'.isOk = r.isOk) :
    Matches (result >>= f) answer := by
  intro r b hr hb
  obtain ⟨r', hRun, hf'⟩ := Option.bind_eq_some_iff.mp hr
  rw [hf r' r hf']
  exact h _ _ hRun hb

theorem map {result : Option (Checked ε α)} {answer : Option Bool} (h : Matches result answer) (f : α → β) :
    Matches (result >>= fun r => pure (r.map f)) answer := by
  apply h.after
  intro _ _ hr
  cases hr
  exact Checked.isOk_map _ _

theorem within {result : Option (Decoded α)} {answer : Option Bool} (h : Matches result answer)
    (locate : Failures String → Failure String) :
    Matches (result >>= fun r => pure (Decoded.within locate r)) answer := by
  apply h.after
  intro _ _ hr
  cases hr
  exact Checked.isOk_within _ _

/-- The test goes on by the verdict on what the check goes on with. -/
theorem bind {result : Option (Checked ε α)} {answer : Option Bool} (h : Matches result answer)
    {f : Checked ε α → Option (Checked ε β)} {g : Bool → Option Bool}
    (hStep : ∀ r, result = some r → Matches (f r) (g r.isOk)) : Matches (result >>= f) (answer >>= g) := by
  intro r b hr hb
  obtain ⟨first, hFirst, hr⟩ := Option.bind_eq_some_iff.mp hr
  obtain ⟨found, hFound, hb⟩ := Option.bind_eq_some_iff.mp hb
  cases h first found hFirst hFound
  exact hStep first hFirst r b hr hb

theorem all {R : τ → υ → Prop} {xs : List τ} {ys : List υ} (h : List.Forall₂ R xs ys)
    {f : τ → Option (Checked ε α)} {g : υ → Option Bool} (hStep : ∀ x y, R x y → Matches (f x) (g y)) :
    ∀ {rs b}, xs.mapM f = some rs → ys.allM g = some b → (Checked.collect rs).isOk = b := by
  induction h with
  | nil =>
    intro rs b hrs hb
    cases hrs
    cases hb
    rfl
  | @cons x y xs ys hxy _ ih =>
    intro rs b hrs hb
    rw [List.mapM_cons] at hrs
    obtain ⟨r, hr, hrs⟩ := Option.bind_eq_some_iff.mp hrs
    obtain ⟨rest, hRest, hrs⟩ := Option.bind_eq_some_iff.mp hrs
    cases hrs
    obtain ⟨first, hFirst, hb⟩ := Option.bind_eq_some_iff.mp hb
    rw [Checked.isOk_collect, List.all_cons, hStep x y hxy r first hr hFirst]
    cases first with
    | false =>
      -- The test stops here. The check runs its other parts as well, but they cannot mend it.
      exact Option.some.inj hb
    | true =>
      rw [Bool.true_and, ← Checked.isOk_collect]
      exact ih hRest hb

theorem traverseIndexed {R : τ × Nat → υ → Prop} {xs : List τ} {ys : List υ}
    (h : List.Forall₂ R xs.zipIdx ys) {f : Nat → τ → Option (Checked ε α)} {g : υ → Option Bool}
    (hStep : ∀ i x y, R (x, i) y → Matches (f i x) (g y)) :
    Matches (Checked.traverseIndexed xs f) (ys.allM g) := by
  intro r b hr hb
  obtain ⟨rs, hRuns, hr⟩ := Checked.traverseIndexed_eq_some hr
  rw [hr]
  exact all h (fun x y hxy => hStep x.2 x.1 y hxy) hRuns hb

theorem traverseKeyed {R : String × τ → υ → Prop} {xs : Entries τ} {ys : List υ}
    (h : List.Forall₂ R xs ys) {f : String → τ → Option (Checked ε α)} {g : υ → Option Bool}
    (hStep : ∀ name x y, R (name, x) y → Matches (f name x) (g y)) :
    Matches (Checked.traverseKeyed xs f) (ys.allM g) := by
  intro r b hr hb
  obtain ⟨rs, hRuns, hr⟩ := Checked.traverseKeyed_eq_some hr
  rw [hr, Checked.isOk_map]
  refine all h (fun x y hxy => ?_) hRuns hb
  rw [Option.map_eq_bind]
  exact (hStep x.1 x.2 y hxy).map _

end Matches

/-- Check and test come to the same verdict on every value on which both come to an end. -/
def Agree (check : Check Option) (test : Test Option) : Prop := ∀ v, Matches (check v) (test v)

theorem Test.allM_present (props : Entries (Test Option)) (entries : Entries Value) :
    (props.allM fun p =>
      match Entries.get? entries p.1 with
      | none | some .null => pure true
      | some raw => p.2 raw) =
    (props.filterMap fun p => (entries.get? p.1).map fun raw => (p.1, p.2, raw)).allM fun p =>
      match p.2.2 with
      | .null => pure true
      | raw => p.2.1 raw := by
  induction props with
  | nil => rfl
  | cons p rest ih =>
    rw [List.allM_cons, ih, List.filterMap_cons]
    cases entries.get? p.1 with
    | none => rfl
    | some raw =>
      rw [Option.map_some, List.allM_cons]
      cases raw <;> rfl

theorem Value.string?_getD_null (raw : Option Value) :
    (raw.getD .null).string? = raw.bind Value.string? := by
  cases raw <;> rfl

namespace Agree
variable {check check' : Check Option} {test test' : Test Option}

theorem nullable (h : Agree check test) : Agree (Check.nullable check) (Test.nullable test) := by
  intro v
  cases v with
  | null => exact Matches.of_isOk _
  | _ =>
    apply (h _).after
    intro r r' hr
    cases r <;> cases hr <;> rfl

theorem object {checks : Entries (Check Option)} {tests : Entries (Test Option)}
    (h : Entries.Related Agree checks tests) : Agree (Check.object checks) (Test.object tests) := by
  intro v
  cases v with
  | obj entries =>
    refine Matches.map (Matches.traverseKeyed h ?_) _
    rintro name c ⟨_, t⟩ ⟨rfl, hct⟩
    exact (hct _).within _
  | _ => exact Matches.of_isOk _

theorem partialObject {checks : Entries (Check Option)} {tests : Entries (Test Option)}
    (h : Entries.Related Agree checks tests) :
    Agree (Check.partialObject checks) (Test.partialObject tests) := by
  intro v
  cases v with
  | obj entries =>
    have hTest : Test.partialObject tests (.obj entries) = _ := Test.allM_present tests entries
    rw [hTest]
    refine Matches.map (Matches.traverseKeyed (h.present entries) ?_) _
    rintro name ⟨c, raw⟩ ⟨_, t, _⟩ ⟨rfl, hct, rfl⟩
    cases raw with
    | null => exact Matches.of_isOk _
    | _ => exact (hct _).within _
  | _ => exact Matches.of_isOk _

theorem record (h : Agree check test) : Agree (Check.record check) (Test.record test) := by
  intro v
  cases v with
  | obj entries =>
    have hEntries : List.Forall₂ Eq entries entries := List.forall₂_refl entries
    refine Matches.map (Matches.traverseKeyed hEntries ?_) _
    rintro name raw _ rfl
    exact (h raw).within _
  | _ => exact Matches.of_isOk _

theorem array (h : Agree check test) : Agree (Check.array check) (Test.array test) := by
  intro v
  cases v with
  | arr items =>
    refine Matches.map (Matches.traverseIndexed (forall₂_zipIdx_self items 0) ?_) _
    rintro i raw _ rfl
    exact (h raw).within _
  | _ => exact Matches.of_isOk _

theorem isOk_extras (arity : Nat) (items : List Value) :
    (Check.extras arity items).isOk = decide (items.length ≤ arity) := by
  unfold Check.extras
  rw [Checked.isOk_collect, List.all_map]
  by_cases hLength : items.length ≤ arity
  · rw [List.drop_of_length_le hLength, decide_eq_true hLength]
    rfl
  · rw [decide_eq_false hLength, List.drop_eq_getElem_cons (Nat.lt_of_not_le hLength)]
    rfl

theorem tuple {checks : List (Check Option)} {tests : List (Test Option)}
    (h : List.Forall₂ Agree checks tests) : Agree (Check.tuple checks) (Test.tuple tests) := by
  intro v
  cases v with
  | arr items =>
    intro r b hr hb
    obtain ⟨values, hValues, hr⟩ := Option.bind_eq_some_iff.mp hr
    cases hr
    rw [Checked.isOk_map, Checked.isOk_both, isOk_extras]
    have hTest : (if items.length ≤ tests.length then
        tests.zipIdx.allM fun slot => slot.1 (items[slot.2]?.getD .null) else some false) = some b := hb
    rw [← h.length_eq] at hTest
    -- Of an array that is too long the test runs no slot, while the check runs all of them.
    by_cases hLength : items.length ≤ checks.length
    · rw [if_pos hLength] at hTest
      rw [decide_eq_true hLength, Bool.and_true]
      refine Matches.traverseIndexed (forall₂_zipIdx h 0) ?_ values b hValues hTest
      rintro i c ⟨t, _⟩ ⟨rfl, hct⟩
      exact (hct _).within _
    · rw [if_neg hLength] at hTest
      rw [decide_eq_false hLength, Bool.and_false]
      exact Option.some.inj hTest
  | _ => exact Matches.of_isOk _

theorem firstOf {checks : List (Check Option)} {tests : List (Test Option)}
    (h : List.Forall₂ Agree checks tests) (v : Value) :
    ∀ start r b, Check.firstOf v start checks = some r → tests.anyM (fun t => t v) = some b →
      r.isOk = b := by
  induction h with
  | nil =>
    intro _ r b hr hb
    cases hr
    cases hb
    rfl
  | @cons c t _ _ hct _ ih =>
    intro start r b hr hb
    obtain ⟨first, hFirst, hr⟩ := Option.bind_eq_some_iff.mp hr
    obtain ⟨found, hFound, hb⟩ := Option.bind_eq_some_iff.mp hb
    have hMatch := hct v first found hFirst hFound
    cases first with
    | ok w =>
      cases hMatch
      cases hr
      exact Option.some.inj hb
    | error e =>
      cases hMatch
      obtain ⟨rest, hRest, hr⟩ := Option.bind_eq_some_iff.mp hr
      have hSame := ih (start + 1) rest b hRest hb
      cases rest <;> cases hr <;> exact hSame

theorem union {checks : List (Check Option)} {tests : List (Test Option)}
    (h : List.Forall₂ Agree checks tests) : Agree (Check.union checks) (Test.union tests) := by
  intro v r b hr hb
  obtain ⟨found, hFound, hr⟩ := Option.bind_eq_some_iff.mp hr
  rw [← firstOf h v 0 found b hFound hb]
  match found with
  | .ok w => cases hr; rfl
  | .error [] => cases hr; rfl
  | .error (e :: es) => cases hr; rfl

theorem inter {check check' : Check Option} {test test' : Test Option} (h : Agree check test)
    (h' : Agree check' test') : Agree (Check.inter check check') (Test.inter test test') := by
  intro v r b hr hb
  obtain ⟨left, hLeft, hr⟩ := Option.bind_eq_some_iff.mp hr
  obtain ⟨right, hRight, hr⟩ := Option.bind_eq_some_iff.mp hr
  obtain ⟨first, hFirst, hb⟩ := Option.bind_eq_some_iff.mp hb
  cases hr
  rw [Checked.isOk_map, Checked.isOk_both, h v left first hLeft hFirst]
  cases first with
  | false => exact Option.some.inj hb
  | true => exact h' v right b hRight hb

theorem tagged (tag : String) {checks : Entries (Check Option)} {tests : Entries (Test Option)}
    (h : Entries.Related Agree checks tests) :
    Agree (Check.tagged tag checks) (Test.tagged tag tests) := by
  intro v
  cases v with
  | obj entries =>
    have hName : (Entries.get? entries tag).bind Value.string? =
        ((Entries.get? entries tag).getD .null).string? :=
      (Value.string?_getD_null _).symm
    simp only [Check.tagged, Test.tagged, Value.get?, hName]
    rcases h.ofList.selected _ with ⟨hLeft, hRight⟩ | ⟨c, t, hLeft, hRight, hct⟩
    · rw [hLeft, hRight]
      exact Matches.of_isOk _
    · rw [hLeft, hRight]
      exact hct _
  | _ => exact Matches.of_isOk _

/-- What the check chooses by, given what has been decoded, is what the test asks about the value. -/
theorem choose (h : Agree check test) {chosen : Value → Value → Bool} {holds : Value → Bool}
    (hSame : ∀ v w, check v = some (.ok w) → holds v = chosen v w) (expected : String) :
    Agree (Check.andThen check fun v w => if chosen v w then .ok w else Decoded.reject w expected)
      (Test.refine test holds) := by
  intro v
  refine (h v).bind fun first hFirst => ?_
  cases first with
  | ok w =>
    have hVerdict := Checked.isOk_choose (chosen v w = true) w w expected
    rw [Bool.decide_eq_true] at hVerdict
    exact Matches.of_isOk_eq (hVerdict.trans (hSame v w hFirst).symm)
  | error e => exact Matches.of_isOk _

theorem refine (h : Agree check test) (holds : Value → Bool) (expected : String) :
    Agree (Check.andThen check fun v w => if holds v then .ok w else Decoded.reject w expected)
      (Test.refine test holds) :=
  h.choose (fun _ _ _ => rfl) expected

theorem lazy {check : Check Option} {test : Test Option} (id : String) (h : Agree check test) :
    Agree (Check.lazy id check) test :=
  fun v => (h v).within (.lazy id)

theorem kind (k : Kind) : Agree (Check.kind k) (Test.kind k) :=
  fun v => Matches.of_isOk_eq (Checked.isOk_choose (v.kind = k) v v k.expected)

theorem literal (values : List Value) : Agree (Check.literal values) (Test.literal values) := by
  intro v
  have hVerdict := Checked.isOk_choose (values.contains v = true) v v (Check.alternatives values)
  rw [Bool.decide_eq_true] at hVerdict
  exact Matches.of_isOk_eq hVerdict

theorem checking_related_testing {σ : Type} (f : σ → Check Option) (g : σ → Test Option) :
    (Interpretation.checking f).Related Agree (Interpretation.testing g) where
  kind := kind
  literal := literal
  nullable := nullable
  object := object
  partialObject := partialObject
  record := record
  array := array
  tuple := tuple
  union := union
  inter := inter
  tagged tag _ _ := tagged tag
  refine holds expected _ _ h := h.refine holds expected

/-- The bounds may differ: no run that has ended can tell how large its bound was. -/
theorem follow (definitions : Definitions) (m n : Nat) (link : Link) :
    Agree (definitions.follow .checking m link) (definitions.follow .testing n link) := by
  induction m generalizing n link with
  | zero =>
    intro v r b hr
    cases hr
  | succ m ih =>
    intro v r b hr hb
    cases n with
    | zero => cases hb
    | succ n =>
      obtain ⟨s, hFound, hr⟩ := Option.bind_eq_some_iff.mp hr
      obtain ⟨s', hFound', hb⟩ := Option.bind_eq_some_iff.mp hb
      cases hFound.symm.trans hFound'
      have hAgree := s.unfold_related (checking_related_testing _ _) fun link _ =>
        lazy link.id (ih n link)
      exact hAgree v r b hr hb

end Agree

theorem Schema.decode_agrees_accepts (definitions : Definitions) (m n : Nat) (s : Schema) :
    Agree (s.decode definitions m) (s.accepts definitions n) := by
  rw [s.decode_eq, s.accepts_eq]
  apply s.unfold_related (Agree.checking_related_testing _ _)
  intro link _
  exact Agree.lazy link.id (Agree.follow definitions m n link)

section
variable {definitions : Definitions} {A : Assignment} {schema : Schema}

/-- A decoder succeeds exactly where the guard of its schema says yes, if both end there. -/
theorem decoder_succeeds_iff_guard_accepts (hDefinitions : definitions.Follow A)
    (hSchema : schema.Follows A) {m n : Nat} {v : Value} {result : Decoded Value} {answer : Bool}
    (hDecoded : Interpreter.decoders.fresh definitions m schema v = some result)
    (hAnswer : Interpreter.guards.fresh definitions n schema v = some answer) :
    (∃ w, result = .ok w) ↔ answer = true := by
  rw [Interpreter.fresh_eq Interpreter.decoders_faithful hDefinitions hSchema] at hDecoded
  rw [Interpreter.fresh_eq Interpreter.guards_faithful hDefinitions hSchema] at hAnswer
  have hSame := schema.decode_agrees_accepts definitions m n v result answer hDecoded hAnswer
  rw [← Checked.isOk_iff, hSame]

def Trees.sapling : Value :=
  .obj [("label", .str "a"), ("rest", .arr [.null, .obj [("rest", .arr []), ("label", .str "b")]])]

def Trees.saplingDecoded : Value :=
  .obj [("label", .str "a"), ("rest", .arr [.null,
    .obj [("label", .str "b"), ("rest", .arr [.null, .null])]])]

theorem sapling_decoded_iff_accepted :
    Interpreter.decoders.fresh Trees.definitions 1 Trees.schema Trees.sapling =
        some (.ok Trees.saplingDecoded) ∧
      Interpreter.guards.fresh Trees.definitions 2 Trees.schema Trees.sapling = some true ∧
      ((∃ w, (.ok Trees.saplingDecoded : Decoded Value) = .ok w) ↔ true = true) := by
  have hDecoded : Interpreter.decoders.fresh Trees.definitions 1 Trees.schema Trees.sapling =
      some (.ok Trees.saplingDecoded) := rfl
  have hAnswer : Interpreter.guards.fresh Trees.definitions 2 Trees.schema Trees.sapling =
      some true := rfl
  exact ⟨hDecoded, hAnswer, decoder_succeeds_iff_guard_accepts Trees.definitions_follow
    Trees.schema_follows hDecoded hAnswer⟩

end

end JsonShapes
