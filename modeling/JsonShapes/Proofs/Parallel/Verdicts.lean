import JsonShapes.Proofs.Parallel.Shapes

/-! # One verdict on a shape

Read without any registry, a plain decoder and a guard of one shape come to the same verdict wherever both come to
an end, if the two predicates of each refinement agree on what is refined.
-/
namespace JsonShapes
set_option autoImplicit false

/-- Shapes with names. Of each place where a shape is referred to, the thunk gives the shape of one name. -/
structure Shapes where
  thunk : CallSite → String
  named : Entries Shape

namespace Shapes

def find? (S : Shapes) (callSite : CallSite) : Option Shape := S.named.get? (S.thunk callSite)

/-- Builds the shape afresh each time a reference is followed. -/
def resolver (S : Shapes) : Resolver Option CallSite where
  guard callSite := (S.find? callSite).map (·.guard id)
  decoder callSite := (S.find? callSite).map (·.decoder id)
  encoder _ := none

def decode (S : Shapes) (bound : Nat) (s : Shape) (v : Value) : Option (Decoded Value) :=
  S.resolver.decode bound (s.decoder id) v

def accepts (S : Shapes) (bound : Nat) (s : Shape) (v : Value) : Option Bool :=
  S.resolver.test bound (s.guard id) v

/-- What is asked about a decoded value and about the input it was decoded from has one answer. -/
def Agreeing (S : Shapes) (of : Shape) (onDecoded onInput : Value → Bool) : Prop :=
  ∀ bound v w, S.decode bound of v = some (.ok w) → onInput v = onDecoded w

end Shapes

namespace Shape
variable (S : Shapes)

mutual

/-- The two predicates of every refinement agree on what their shape decodes. -/
def Honest : Shape → Prop
  | any | kind _ | number | literal _ | pattern _ _ | lazy _ => True
  | refine of onDecoded onInput _ => of.Honest ∧ S.Agreeing of onDecoded onInput
  | nullable s | record s | array s => s.Honest
  | object props | partialObject props | tagged _ props => HonestNamed props
  | tuple items | union items => HonestEach items
  | inter left right | alt left right => left.Honest ∧ right.Honest

def HonestEach : List Shape → Prop
  | [] => True
  | s :: rest => s.Honest ∧ HonestEach rest

def HonestNamed : List (String × Shape) → Prop
  | [] => True
  | (_, s) :: rest => s.Honest ∧ HonestNamed rest

end

end Shape

def Shapes.Honest (S : Shapes) : Prop := ∀ e ∈ S.named, e.2.Honest S

theorem Check.eq_of_kind {k : Kind} {v w : Value} (h : (Check.kind k : Check Option) v = some (.ok w)) : w = v := by
  have hResult : (if v.kind = k then .ok v else Decoded.reject v k.expected) = .ok w := Option.some.inj h
  split at hResult
  · cases hResult
    rfl
  · cases hResult

namespace Agree
variable {check check' : Check Option} {test test' : Test Option}

theorem any : Agree Check.any Test.any := fun _ => Matches.of_isOk _

theorem float : Agree Check.float (Test.kind .number) := by
  intro v
  cases v <;> exact Matches.of_isOk _

theorem alt (h : Agree check test) (h' : Agree check' test') :
    Agree (Check.alt check check') (Test.union [test, test']) := by
  intro v
  refine (h v).bind fun first _ => ?_
  cases first with
  | ok w => exact Matches.of_isOk _
  | error e =>
    refine (h' v).bind fun second _ => ?_
    cases second <;> exact Matches.of_isOk _

end Agree

namespace Shape
variable {S : Shapes} {m n : Nat}

mutual

theorem agree (hFollow : ∀ callSite, Agree (S.resolver.followCheck m callSite) (S.resolver.followTest n callSite))
    (s : Shape) (h : s.Honest S) : Agree (S.decode m s) (S.accepts n s) := by
  unfold Shapes.decode Shapes.accepts
  cases s with
  | any =>
    unfold decoder guard
    exact .any
  | kind k =>
    unfold decoder guard
    exact .kind k
  | number =>
    unfold decoder guard
    exact .float
  | literal values =>
    unfold decoder guard
    exact .literal values
  | pattern isMatch written =>
    unfold decoder guard
    refine (Agree.kind .string).choose (fun v w hString => ?_) _
    rw [Check.eq_of_kind hString]
  | refine of onDecoded onInput expected =>
    unfold Honest at h
    unfold decoder guard
    exact (agree hFollow of h.1).choose (h.2 m) expected
  | nullable or =>
    unfold Honest at h
    unfold decoder guard
    exact (agree hFollow or h).nullable
  | object props =>
    unfold Honest at h
    unfold decoder guard
    exact Agree.object (agreeNamed hFollow props h)
  | partialObject props =>
    unfold Honest at h
    unfold decoder guard
    exact Agree.partialObject (agreeNamed hFollow props h)
  | record of =>
    unfold Honest at h
    unfold decoder guard
    exact (agree hFollow of h).record
  | array of =>
    unfold Honest at h
    unfold decoder guard
    exact (agree hFollow of h).array
  | tuple slots =>
    unfold Honest at h
    unfold decoder guard
    exact Agree.tuple (agreeEach hFollow slots h)
  | union members =>
    unfold Honest at h
    unfold decoder guard
    exact Agree.union (agreeEach hFollow members h)
  | inter left right =>
    unfold Honest at h
    unfold decoder guard
    exact (agree hFollow left h.1).inter (agree hFollow right h.2)
  | tagged tag members =>
    unfold Honest at h
    unfold decoder guard
    exact Agree.tagged tag (agreeNamed hFollow members h)
  | alt of that =>
    unfold Honest at h
    unfold decoder guard
    exact (agree hFollow of h.1).alt (agree hFollow that h.2)
  | lazy callSite =>
    unfold decoder guard
    exact (hFollow callSite).lazy callSite.id

theorem agreeEach
    (hFollow : ∀ callSite, Agree (S.resolver.followCheck m callSite) (S.resolver.followTest n callSite))
    (shapes : List Shape) (h : HonestEach S shapes) : List.Forall₂ Agree
      (Decoder.runEach (S.resolver.followTest m) (S.resolver.followCheck m) (decoderEach id shapes))
      (Guard.runEach (S.resolver.followTest n) (guardEach id shapes)) := by
  cases shapes with
  | nil =>
    unfold decoderEach guardEach
    exact .nil
  | cons s rest =>
    unfold HonestEach at h
    unfold decoderEach guardEach
    exact .cons (agree hFollow s h.1) (agreeEach hFollow rest h.2)

theorem agreeNamed
    (hFollow : ∀ callSite, Agree (S.resolver.followCheck m callSite) (S.resolver.followTest n callSite))
    (shapes : List (String × Shape)) (h : HonestNamed S shapes) : Entries.Related Agree
      (Decoder.runNamed (S.resolver.followTest m) (S.resolver.followCheck m) (decoderNamed id shapes))
      (Guard.runNamed (S.resolver.followTest n) (guardNamed id shapes)) := by
  cases shapes with
  | nil =>
    unfold decoderNamed guardNamed
    exact .nil
  | cons e rest =>
    unfold HonestNamed at h
    unfold decoderNamed guardNamed
    exact .cons ⟨rfl, agree hFollow e.2 h.1⟩ (agreeNamed hFollow rest h.2)

end

/-- The bounds may differ: no run that has ended can tell how large its bound was. -/
theorem follow_agree (hS : S.Honest) (m n : Nat) (callSite : CallSite) :
    Agree (S.resolver.followCheck m callSite) (S.resolver.followTest n callSite) := by
  induction m generalizing n callSite with
  | zero =>
    intro v r b hr
    cases hr
  | succ m ih =>
    intro v r b hr hb
    cases n with
    | zero => cases hb
    | succ n =>
      obtain ⟨d, hDecoder, hr⟩ := Option.bind_eq_some_iff.mp hr
      obtain ⟨g, hGuard, hb⟩ := Option.bind_eq_some_iff.mp hb
      obtain ⟨s, hFound, rfl⟩ := Option.map_eq_some_iff.mp hDecoder
      obtain ⟨s', hFound', rfl⟩ := Option.map_eq_some_iff.mp hGuard
      cases hFound.symm.trans hFound'
      exact s.agree (ih n) (hS _ (Entries.mem_of_get? hFound)) v r b hr hb

end Shape

theorem Shapes.decode_agrees_accepts {S : Shapes} (hS : S.Honest) {s : Shape} (h : s.Honest S) (m n : Nat) :
    Agree (S.decode m s) (S.accepts n s) :=
  s.agree (Shape.follow_agree hS m n) h

end JsonShapes
