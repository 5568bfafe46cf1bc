import JsonShapes.Proofs.Memoization.Interpreters
import JsonShapes.Proofs.Reports.Violations

/-! # Decoders report all violations

The failures of a decoder, flattened, are the violations of its schema: the same list, with the same
paths, for every value and within every bound. A decoder therefore succeeds exactly where there are
no violations.
-/
namespace JsonShapes
set_option autoImplicit false

/-- The survey finds exactly what the check reports, and ends whenever the check does. -/
def Reports (check : Check Option) (survey : Survey) : Prop :=
  ∀ v, (check v).map Decoded.rejections = survey v

namespace Survey

theorem collect_mapM {τ υ α : Type} {R : τ → υ → Prop} {xs : List τ} {ys : List υ}
    (h : List.Forall₂ R xs ys) {f : τ → Option (Decoded α)} {g : υ → Option (List (Rejection String))}
    (hStep : ∀ x y, R x y → (f x).map Decoded.rejections = g y) :
    (xs.mapM f).map (fun rs => Decoded.rejections (Checked.collect rs)) = concat g ys := by
  simp only [Decoded.rejections_collect]
  induction h with
  | nil => rfl
  | @cons x y xs ys hxy _ ih =>
    rw [List.mapM_cons, concat, ← hStep x y hxy, ← ih]
    cases f x with
    | none => rfl
    | some r => cases xs.mapM f <;> rfl

theorem traverseIndexed {τ υ α : Type} {R : τ × Nat → υ → Prop} {xs : List τ} {ys : List υ}
    (h : List.Forall₂ R xs.zipIdx ys) {f : Nat → τ → Option (Decoded α)}
    {g : υ → Option (List (Rejection String))}
    (hStep : ∀ i x y, R (x, i) y → (f i x).map Decoded.rejections = g y) :
    (Checked.traverseIndexed xs f).map Decoded.rejections = concat g ys := by
  rw [← collect_mapM h fun x y hxy => hStep x.2 x.1 y hxy]
  simp only [Checked.traverseIndexed, Option.bind_eq_bind, Option.map_bind]
  rw [Option.map_eq_bind]
  rfl

theorem traverseKeyed {τ υ α : Type} {R : String × τ → υ → Prop} {xs : Entries τ} {ys : List υ}
    (h : List.Forall₂ R xs ys) {f : String → τ → Option (Decoded α)}
    {g : υ → Option (List (Rejection String))}
    (hStep : ∀ name x y, R (name, x) y → (f name x).map Decoded.rejections = g y) :
    (Checked.traverseKeyed xs f).map Decoded.rejections = concat g ys := by
  have hNamed (x : String × τ) (y : υ) (hxy : R x y) :
      (do let result ← f x.1 x.2; return result.map fun a => (x.1, a)).map Decoded.rejections = g y := by
    rw [← hStep x.1 x.2 y hxy]
    cases f x.1 x.2 with
    | none => rfl
    | some r => exact congrArg some (Decoded.rejections_map _ r)
  rw [← collect_mapM h hNamed]
  simp only [Checked.traverseKeyed, Option.bind_eq_bind, Option.map_bind]
  rw [Option.map_eq_bind]
  congr 1
  funext rs
  exact congrArg some (Decoded.rejections_map _ _)

theorem map_rejections_bind {α β : Type} (x : Option (Decoded α)) {f : Decoded α → Decoded β}
    (hf : ∀ r, (f r).rejections = r.rejections) :
    (x >>= fun r => pure (f r)).map Decoded.rejections = x.map Decoded.rejections := by
  cases x with
  | none => rfl
  | some r => exact congrArg some (hf r)

theorem map_rejections_within {α : Type} (step : Step) (x : Option (Decoded α)) :
    (x >>= fun r => pure (Decoded.within (.under step) r)).map Decoded.rejections =
      located step (x.map Decoded.rejections) := by
  cases x with
  | none => rfl
  | some r => exact congrArg some (Decoded.rejections_within step r)

theorem map_rejections_both {α β γ : Type} (x : Option (Decoded α)) (r : Decoded β) (f : α × β → γ) :
    (x >>= fun a => pure ((Checked.both a r).map f)).map Decoded.rejections =
      x.map Decoded.rejections >>= fun found => pure (found ++ r.rejections) := by
  cases x with
  | none => rfl
  | some a => exact congrArg some ((Decoded.rejections_map f _).trans (Decoded.rejections_both a r))

end Survey

namespace Reports
open Survey

theorem kind (k : Kind) : Reports (Check.kind k) (Survey.kind k) := by
  intro v
  by_cases hKind : v.kind = k
  · simp only [Check.kind, Survey.kind, if_pos hKind]
    rfl
  · simp only [Check.kind, Survey.kind, if_neg hKind]
    rfl

theorem literal (values : List Value) : Reports (Check.literal values) (Survey.literal values) := by
  intro v
  by_cases hValue : values.contains v = true
  · simp only [Check.literal, Survey.literal, if_pos hValue]
    rfl
  · simp only [Check.literal, Survey.literal, if_neg hValue]
    rfl

theorem object {checks : Entries (Check Option)} {surveys : Entries Survey}
    (h : Entries.Related Reports checks surveys) :
    Reports (Check.object checks) (Survey.object surveys) := by
  intro v
  cases v with
  | obj entries =>
    refine (map_rejections_bind _ fun r => Decoded.rejections_map _ r).trans (traverseKeyed h ?_)
    rintro name c ⟨_, s⟩ ⟨rfl, hcs⟩
    rw [← hcs]
    exact map_rejections_within (.key name .required) _
  | _ => rfl

theorem concat_present (surveys : Entries Survey) (entries : Entries Value) :
    concat (fun p =>
      match Entries.get? entries p.1 with
      | none | some .null => some []
      | some raw => located (.key p.1 .optional) (p.2 raw)) surveys =
    concat (fun p : String × Survey × Value =>
      match p.2.2 with
      | .null => some []
      | raw => located (.key p.1 .optional) (p.2.1 raw))
      (surveys.filterMap fun p => (entries.get? p.1).map fun raw => (p.1, p.2, raw)) := by
  induction surveys with
  | nil => rfl
  | cons p rest ih =>
    rw [concat, ih, List.filterMap_cons]
    cases entries.get? p.1 with
    | none =>
      dsimp only [Option.map_none]
      generalize concat _ _ = found
      cases found <;> rfl
    | some raw => cases raw <;> rfl

theorem partialObject {checks : Entries (Check Option)} {surveys : Entries Survey}
    (h : Entries.Related Reports checks surveys) :
    Reports (Check.partialObject checks) (Survey.partialObject surveys) := by
  intro v
  cases v with
  | obj entries =>
    have hSurvey : Survey.partialObject surveys (.obj entries) = _ := concat_present surveys entries
    rw [hSurvey]
    refine (map_rejections_bind _ fun r => Decoded.rejections_map _ r).trans
      (traverseKeyed (h.present entries) ?_)
    rintro name ⟨c, raw⟩ ⟨_, s, _⟩ ⟨rfl, hcs, rfl⟩
    have hSame : Reports c s := hcs
    cases raw with
    | null => rfl
    | _ =>
      refine (map_rejections_within (.key name .optional) (c _)).trans ?_
      exact congrArg (located _) (hSame _)
  | _ => rfl

theorem record {check : Check Option} {survey : Survey} (h : Reports check survey) :
    Reports (Check.record check) (Survey.record survey) := by
  intro v
  cases v with
  | obj entries =>
    have hEntries : List.Forall₂ Eq entries entries := List.forall₂_refl entries
    refine (map_rejections_bind _ fun r => Decoded.rejections_map _ r).trans (traverseKeyed hEntries ?_)
    rintro name raw _ rfl
    rw [← h]
    exact map_rejections_within (.key name .required) _
  | _ => rfl

theorem array {check : Check Option} {survey : Survey} (h : Reports check survey) :
    Reports (Check.array check) (Survey.array survey) := by
  intro v
  cases v with
  | arr items =>
    have hItems : List.Forall₂ Eq items.zipIdx items.zipIdx := List.forall₂_refl items.zipIdx
    refine (map_rejections_bind _ fun r => Decoded.rejections_map _ r).trans (traverseIndexed hItems ?_)
    rintro i raw _ rfl
    rw [← h]
    exact map_rejections_within (.index i .optional) _
  | _ => rfl

theorem drop_zipIdx {τ : Type} (xs : List τ) (n start : Nat) :
    (xs.zipIdx start).drop n = (xs.drop n).zipIdx (start + n) := by
  induction xs generalizing n start with
  | nil => simp
  | cons x rest ih =>
    cases n with
    | zero => rfl
    | succ n =>
      rw [List.zipIdx_cons, List.drop_succ_cons, List.drop_succ_cons, ih, Nat.add_right_comm,
        Nat.add_assoc]

theorem rejections_extras (arity : Nat) (items : List Value) :
    Decoded.rejections (Check.extras arity items) = (items.zipIdx.drop arity).flatMap fun item =>
      (rejected item.1 "never").map (Rejection.under (.index item.2 .optional)) := by
  unfold Check.extras
  rw [Decoded.rejections_collect, List.flatMap_map, drop_zipIdx, Nat.zero_add]
  rfl

theorem tuple {checks : List (Check Option)} {surveys : List Survey}
    (h : List.Forall₂ Reports checks surveys) :
    Reports (Check.tuple checks) (Survey.tuple surveys) := by
  intro v
  cases v with
  | arr items =>
    have hSlots : Option.map Decoded.rejections (Checked.traverseIndexed checks fun i check =>
          check (items[i]?.getD .null) >>= fun r => pure (Decoded.within (.index i .required) r)) =
        concat (fun slot => located (.index slot.2 .required) (slot.1 (items[slot.2]?.getD .null)))
          surveys.zipIdx := by
      refine traverseIndexed (forall₂_zipIdx h 0) ?_
      rintro i c ⟨s, _⟩ ⟨rfl, hcs⟩
      rw [← hcs]
      exact map_rejections_within (.index i .required) _
    simp only [Check.tuple, Survey.tuple]
    rw [← hSlots, ← h.length_eq, ← rejections_extras]
    exact map_rejections_both _ _ _
  | _ => rfl

theorem inter {check check' : Check Option} {survey survey' : Survey} (h : Reports check survey)
    (h' : Reports check' survey') : Reports (Check.inter check check') (Survey.inter survey survey') := by
  intro v
  rw [Survey.inter, ← h v, ← h' v, Check.inter]
  cases check' v with
  | none => cases check v <;> rfl
  | some right => exact map_rejections_both (check v) right _

theorem firstOf {checks : List (Check Option)} {surveys : List Survey}
    (h : List.Forall₂ Reports checks surveys) (v : Value) (start : Nat) :
    (Check.firstOf v start checks = none ∧ attempts v surveys = none) ∨
      (∃ w found, Check.firstOf v start checks = some (.ok w) ∧ attempts v surveys = some found ∧
        found.any (·.isEmpty) = true) ∨
      ∃ es found, Check.firstOf v start checks = some (.error es) ∧ attempts v surveys = some found ∧
        found.any (·.isEmpty) = false ∧ found.length = es.length ∧
        es.flatMap Failures.rejections =
          (found.zipIdx start).flatMap fun list => list.1.map (Rejection.under (.member list.2)) := by
  induction h generalizing start with
  | nil => exact .inr (.inr ⟨[], [], rfl, rfl, rfl, rfl, rfl⟩)
  | @cons c s cs ss hcs _ ih =>
    have hHead := hcs v
    rw [Check.firstOf, attempts, ← hHead]
    cases c v with
    | none => exact .inl ⟨rfl, rfl⟩
    | some r =>
      cases r with
      | ok w => exact .inr (.inl ⟨w, [[]], rfl, rfl, rfl⟩)
      | error e =>
        -- A failure has at least one rejection, so both go on to the next member.
        obtain ⟨x, xs, hFound⟩ := List.exists_cons_of_ne_nil (Failures.rejectionsAt_ne_nil e [] [])
        have hSurvey : Option.map Decoded.rejections (some (.error e : Decoded Value)) = some (x :: xs) :=
          congrArg some hFound
        have hMember : Failures.rejections (.single (.member start e)) =
            (x :: xs).map (Rejection.under (.member start)) :=
          (Failures.rejections_under (.member start) e).trans (congrArg _ hFound)
        rw [hSurvey]
        rcases ih (start + 1) with ⟨hLeft, hRight⟩ | ⟨w, found, hLeft, hRight, hAny⟩ |
          ⟨es, found, hLeft, hRight, hAny, hLength, hList⟩
        · left
          simp only [Option.bind_eq_bind, Option.bind_some, hLeft, hRight]
          exact ⟨rfl, rfl⟩
        · right; left
          refine ⟨w, (x :: xs) :: found, ?_, ?_, ?_⟩
          · simp only [Option.bind_eq_bind, Option.bind_some, hLeft]
            rfl
          · simp only [Option.bind_eq_bind, Option.bind_some, hRight]
            rfl
          · simpa using hAny
        · right; right
          refine ⟨.single (.member start e) :: es, (x :: xs) :: found, ?_, ?_, ?_, ?_, ?_⟩
          · simp only [Option.bind_eq_bind, Option.bind_some, hLeft]
            rfl
          · simp only [Option.bind_eq_bind, Option.bind_some, hRight]
            rfl
          · simpa using hAny
          · rw [List.length_cons, List.length_cons, hLength]
          · rw [List.flatMap_cons, List.zipIdx_cons, List.flatMap_cons, hList, hMember]

theorem union {checks : List (Check Option)} {surveys : List Survey}
    (h : List.Forall₂ Reports checks surveys) :
    Reports (Check.union checks) (Survey.union surveys) := by
  intro v
  rw [Check.union, Survey.union]
  rcases firstOf h v 0 with ⟨hLeft, hRight⟩ | ⟨w, found, hLeft, hRight, hAny⟩ |
    ⟨es, found, hLeft, hRight, hAny, hLength, hList⟩
  · rw [hLeft, hRight]
    rfl
  · rw [hLeft, hRight]
    cases found with
    | nil => cases hAny
    | cons x found =>
      simp only [Option.bind_eq_bind, Option.bind_some, hAny]
      rfl
  · rw [hLeft, hRight]
    cases es with
    | nil =>
      cases List.length_eq_zero_iff.mp hLength
      rfl
    | cons e es =>
      cases found with
      | nil => cases hLength
      | cons x found =>
        simp only [Option.bind_eq_bind, Option.bind_some, hAny]
        exact congrArg some ((Failures.rejections_joinAll e es).trans hList)

theorem nullable_eq_union (check : Check Option) (v : Value) :
    Check.nullable check v = Check.union [Check.kind .null, check] v := by
  cases v with
  | null => rfl
  | _ =>
    rw [Check.nullable]
    · simp only [Check.union, Check.firstOf, Check.kind, Value.kind, Option.bind_eq_bind,
        Option.pure_def, Option.bind_some]
      generalize check _ = r
      cases r with
      | none => rfl
      | some r =>
        cases r with
        | ok w => rfl
        | error e =>
          simp only [reduceCtorEq, if_false, Decoded.reject, Option.bind_some, Accum.joinAll,
            Accum.pairUp, Kind.expected]
    · rintro ⟨⟩

theorem nullable {check : Check Option} {survey : Survey} (h : Reports check survey) :
    Reports (Check.nullable check) (Survey.nullable survey) := by
  intro v
  rw [nullable_eq_union]
  exact union (.cons (kind .null) (.cons h .nil)) v

theorem tagged (tag : String) {checks : Entries (Check Option)} {surveys : Entries Survey}
    (h : Entries.Related Reports checks surveys) :
    Reports (Check.tagged tag checks) (Survey.tagged tag surveys) := by
  intro v
  cases v with
  | obj entries =>
    have hLookup (name : String) : (Entries.ofList surveys).get? name = surveys.reverse.lookup name :=
      Entries.get?_ofList surveys name
    simp only [Check.tagged, Survey.tagged, ← hLookup]
    rcases h.ofList.selected _ with ⟨hLeft, hRight⟩ | ⟨c, s, hLeft, hRight, hcs⟩
    · rw [hLeft, hRight, h.ofList.keys_eq, Entries.keys_ofList]
      exact congrArg some (Failures.rejections_under (.key tag .required) _)
    · rw [hLeft, hRight]
      exact hcs _
  | _ => rfl

theorem refine {check : Check Option} {survey : Survey} (h : Reports check survey)
    (holds : Value → Bool) (expected : String) :
    Reports (Check.andThen check fun v w => if holds v then .ok w else Decoded.reject w expected)
      (Survey.refine survey (fun v => (check v).bind Checked.value?) holds expected) := by
  intro v
  have hBase := h v
  cases hRun : check v with
  | none =>
    rw [hRun] at hBase
    simp only [Survey.refine, Check.andThen, hRun, ← hBase]
    rfl
  | some r =>
    rw [hRun] at hBase
    cases r with
    | ok w =>
      have hNone : survey v = some [] := hBase.symm
      simp only [Survey.refine, Check.andThen, hRun, hNone, Option.bind_eq_bind, Option.bind_some]
      cases holds v <;> rfl
    | error e =>
      obtain ⟨x, xs, hFound⟩ := List.exists_cons_of_ne_nil (Failures.rejectionsAt_ne_nil e [] [])
      have hSome : survey v = some (x :: xs) := hBase.symm.trans (congrArg some hFound)
      simp only [Survey.refine, Check.andThen, hRun, hSome, Option.bind_eq_bind, Option.bind_some]
      exact congrArg some hFound

theorem lazy {check : Check Option} {survey : Survey} (id : String) (h : Reports check survey) :
    Reports (Check.lazy id check) (Survey.lazy id survey) := by
  intro v
  rw [Survey.lazy, ← h v]
  exact map_rejections_within (.lazy id) _

end Reports

namespace Schema

section
variable {check : Link → Check Option} {follow : Link → Survey}
variable {decoded : Schema → Value → Option Value}

mutual

theorem survey_reports (hFollow : ∀ link, Reports (check link) (follow link))
    (hDecoded : ∀ s v, (s.unfold (.checking check) v).bind Checked.value? = decoded s v) (s : Schema) :
    Reports (s.unfold (.checking check)) (s.survey follow decoded) := by
  cases s with
  | kind k => exact Reports.kind k
  | literal values => exact Reports.literal values
  | nullable or => exact (survey_reports hFollow hDecoded or).nullable
  | object props => exact Reports.object (surveyNamed_reports hFollow hDecoded props)
  | partialObject props => exact Reports.partialObject (surveyNamed_reports hFollow hDecoded props)
  | record of => exact (survey_reports hFollow hDecoded of).record
  | array of => exact (survey_reports hFollow hDecoded of).array
  | tuple slots => exact Reports.tuple (surveyEach_reports hFollow hDecoded slots)
  | union members => exact Reports.union (surveyEach_reports hFollow hDecoded members)
  | inter left right =>
    exact (survey_reports hFollow hDecoded left).inter (survey_reports hFollow hDecoded right)
  | tagged tag members => exact Reports.tagged tag (surveyNamed_reports hFollow hDecoded members)
  | refine of holds expected =>
    have hBase := (survey_reports hFollow hDecoded of).refine holds expected
    rwa [funext (hDecoded of)] at hBase
  | lazy link => exact (hFollow link).lazy link.id
  | make key body => exact survey_reports hFollow hDecoded body

theorem surveyEach_reports (hFollow : ∀ link, Reports (check link) (follow link))
    (hDecoded : ∀ s v, (s.unfold (.checking check) v).bind Checked.value? = decoded s v)
    (ss : List Schema) :
    List.Forall₂ Reports (unfoldEach (.checking check) ss) (surveyEach follow decoded ss) := by
  cases ss with
  | nil => exact .nil
  | cons s rest =>
    exact .cons (survey_reports hFollow hDecoded s) (surveyEach_reports hFollow hDecoded rest)

theorem surveyNamed_reports (hFollow : ∀ link, Reports (check link) (follow link))
    (hDecoded : ∀ s v, (s.unfold (.checking check) v).bind Checked.value? = decoded s v)
    (ss : List (String × Schema)) :
    Entries.Related Reports (unfoldNamed (.checking check) ss) (surveyNamed follow decoded ss) := by
  cases ss with
  | nil => exact .nil
  | cons e rest =>
    obtain ⟨name, s⟩ := e
    exact .cons ⟨rfl, survey_reports hFollow hDecoded s⟩ (surveyNamed_reports hFollow hDecoded rest)

end

end

variable (definitions : Definitions)

theorem decoded?_eq (bound : Nat) (s : Schema) (v : Value) :
    (s.unfold (.checking (definitions.follow .checking bound)) v).bind Checked.value? =
      s.decoded? definitions bound v := by
  rw [decoded?, decode_eq]

theorem follow_reports (bound : Nat) (link : Link) :
    Reports (definitions.follow .checking bound link) (definitions.survey bound link) := by
  induction bound generalizing link with
  | zero =>
    intro v
    rfl
  | succ n ih =>
    intro v
    rw [Definitions.follow, Definitions.survey]
    cases definitions.get? link.target with
    | none => rfl
    | some s => exact survey_reports ih (decoded?_eq definitions n) s v

theorem decode_reports (bound : Nat) (s : Schema) :
    Reports (s.decode definitions bound) (s.violations definitions bound) := by
  rw [decode_eq]
  exact survey_reports (follow_reports definitions bound) (decoded?_eq definitions bound) s

end Schema

namespace Interpreter
variable {definitions : Definitions} {A : Assignment} {schema : Schema}

/-- What a decoder fails with, flattened, is the list of all violations, and it fails only if there
are any. Where it does not end within the bound, looking for the violations does not either. -/
theorem failures_eq_violations (hDefinitions : definitions.Follow A) (hSchema : schema.Follows A)
    (bound : Nat) (v : Value) :
    (∀ w, decoders.fresh definitions bound schema v = some (.ok w) →
        schema.violations definitions bound v = some []) ∧
      (∀ e, decoders.fresh definitions bound schema v = some (.error e) →
        schema.violations definitions bound v = some (Failures.rejections e) ∧
          Failures.rejections e ≠ []) ∧
      (decoders.fresh definitions bound schema v = none →
        schema.violations definitions bound v = none) := by
  have hReports := schema.decode_reports definitions bound v
  rw [← fresh_eq decoders_faithful hDefinitions hSchema] at hReports
  refine ⟨?_, ?_, ?_⟩
  · intro w hRun
    rw [← hReports, hRun]
    rfl
  · intro e hRun
    rw [← hReports, hRun]
    exact ⟨rfl, Failures.rejectionsAt_ne_nil e [] []⟩
  · intro hRun
    rw [← hReports, hRun]
    rfl

end Interpreter

namespace Trees

def broken : Value := .obj [("rest", .num (.int 3))]

def storm : Value := .obj [("label", .num (.int 1)), ("rest", .arr [broken, .null, .bool true])]

theorem storm_violations :
    schema.violations definitions 1 storm = some
        [⟨[.key "label" .required], .num (.int 1), "string", []⟩,
          ⟨[.key "rest" .required, .index 0 .required, .member 0], broken, "null", []⟩,
          ⟨[.key "rest" .required, .index 0 .required, .member 1, .lazy "Tree", .key "label" .required],
            .null, "string", []⟩,
          ⟨[.key "rest" .required, .index 0 .required, .member 1, .lazy "Tree", .key "rest" .required],
            .num (.int 3), "Array<unknown>", []⟩,
          ⟨[.key "rest" .required, .index 2 .optional], .bool true, "never", []⟩] ∧
      ∀ e, Interpreter.decoders.fresh definitions 1 schema storm = some (.error e) →
        schema.violations definitions 1 storm = some (Failures.rejections e) ∧
          Failures.rejections e ≠ [] :=
  ⟨rfl, (Interpreter.failures_eq_violations definitions_follow schema_follows 1 storm).2.1⟩

end Trees

end JsonShapes
