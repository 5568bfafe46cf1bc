import JsonShapes.Proofs.Closed
import JsonShapes.Proofs.Memoization.Interpreters
import JsonShapes.Proofs.Reports.Walking

/-! # Paths lead to the values that were rejected

A path that a decoder reports can be walked from the decoded value and ends at the very value that was
rejected. This needs schemas without refinements: what a refinement shows is not a part of the input but
what this was decoded to. A decoder reports such paths whenever the decoders behind its references do,
whichever these are, so nothing is assumed of the thunks and keys that schemas share.
-/
namespace JsonShapes
set_option autoImplicit false

namespace Schema

mutual

def refineFree : Schema → Bool
  | kind _ | literal _ | lazy _ => true
  | nullable s | record s | array s | make _ s => s.refineFree
  | object props | partialObject props | tagged _ props => refineFreeNamed props
  | tuple items | union items => refineFreeEach items
  | inter left right => left.refineFree && right.refineFree
  | refine _ _ _ => false

def refineFreeEach : List Schema → Bool
  | [] => true
  | s :: rest => s.refineFree && refineFreeEach rest

def refineFreeNamed : List (String × Schema) → Bool
  | [] => true
  | (_, s) :: rest => s.refineFree && refineFreeNamed rest

end

end Schema

/-- Wherever its references are followed to, if that is accurate, then so is the decoder. -/
def Decoder.Accurate (d : Decoder Nat) : Prop :=
  ∀ {m : Type → Type} [Monad m] (E : Promises m) (test : Nat → Test m) (follow : Nat → Check m),
    (∀ handle, E.Accurate (follow handle)) → E.Accurate (d.run test follow)

namespace Schema

theorem refineFreeEach_iff {ss : List Schema} : refineFreeEach ss ↔ ∀ s ∈ ss, s.refineFree := by
  induction ss with
  | nil => simp [refineFreeEach]
  | cons s rest ih => simp [refineFreeEach, ih]

theorem refineFreeNamed_iff {ss : List (String × Schema)} :
    refineFreeNamed ss ↔ ∀ s ∈ ss.map (·.2), s.refineFree := by
  induction ss with
  | nil => simp [refineFreeNamed]
  | cons e rest ih => simp [refineFreeNamed, ih]

theorem refineFree_part {s t : Schema} (h : s.refineFree) (ht : t ∈ s.parts) : t.refineFree := by
  cases s with
  | kind _ | literal _ | lazy _ => cases ht
  | nullable _ | record _ | array _ | make _ _ => exact List.mem_singleton.mp ht ▸ h
  | object _ | partialObject _ | tagged _ _ => exact refineFreeNamed_iff.mp h t ht
  | tuple _ | union _ => exact refineFreeEach_iff.mp h t ht
  | inter left right =>
    obtain ⟨hLeft, hRight⟩ := Bool.and_eq_true_iff.mp h
    have hEither : t = left ∨ t = right := by simpa [parts] using ht
    rcases hEither with rfl | rfl
    · exact hLeft
    · exact hRight
  | refine _ _ _ => cases h

theorem unrefined_of_refineFree {s : Schema} (h : s.refineFree) : ∀ t ∈ s.nodes, t.Unrefined := by
  induction s using parts_induction with
  | step s ih =>
    rw [nodes_eq]
    refine List.forall_mem_cons.mpr ⟨?_, fun t ht => ?_⟩
    · cases s with
      | refine _ _ _ => cases h
      | _ => trivial
    · obtain ⟨part, hPart, ht⟩ := List.mem_flatMap.mp ht
      exact ih part hPart (refineFree_part h hPart) t ht

/-- Every way to make a schema without refining another keeps what it is made of accurate. -/
theorem decoding_accurate {s : Schema} (h : s.Unrefined) :
    Interpretation.decoding.ClosedAt Decoder.Accurate s := by
  cases s with
  | kind k =>
    intro m _ E test follow _
    exact .guarded (fun _ => E.pure trivial) k.expected
  | literal values =>
    intro m _ E test follow _
    exact .literal values
  | nullable or =>
    intro d hd m _ E test follow hFollow
    exact (hd E test follow hFollow).nullable
  | object props =>
    intro ds _ hds m _ E test follow hFollow
    exact .object (Decoder.forall_mem_runNamed fun p hp => hds p hp E test follow hFollow)
  | partialObject props =>
    intro ds _ hds m _ E test follow hFollow
    exact .partialObject (Decoder.forall_mem_runNamed fun p hp => hds p hp E test follow hFollow)
  | record of =>
    intro d hd m _ E test follow hFollow
    exact (hd E test follow hFollow).record
  | array of =>
    intro d hd m _ E test follow hFollow
    exact (hd E test follow hFollow).array
  | tuple slots =>
    intro ds hds m _ E test follow hFollow
    exact .tuple (Decoder.forall_mem_runEach fun d hd => hds d hd E test follow hFollow)
  | union members =>
    intro ds hds m _ E test follow hFollow
    exact .union (Decoder.forall_mem_runEach fun d hd => hds d hd E test follow hFollow)
  | inter left right =>
    intro l r hl hr m _ E test follow hFollow
    exact (hl E test follow hFollow).inter (hr E test follow hFollow)
  | tagged tag members =>
    intro ds _ hds m _ E test follow hFollow
    exact .tagged tag (Decoder.forall_mem_runNamed fun p hp => hds p hp E test follow hFollow)
  | refine of holds expected => exact h.elim
  | lazy link =>
    intro handle m _ E test follow hFollow
    exact (hFollow handle).lazy link.id
  | make key body => trivial

/-- Promises of decoders that are built in stores with accurate decoders only. -/
abbrev accurately : Promises (StateM (Store (Decoder Nat))) := Store.building Decoder.Accurate

theorem build_accurate {s : Schema} (h : s.refineFree) :
    accurately.Holds (s.build .decoding) Decoder.Accurate :=
  build_closedAt fun t ht => decoding_accurate (unrefined_of_refineFree h t ht)

end Schema

namespace Interpreter
variable {definitions : Definitions} {schema : Schema}

theorem follow_accurate (hFree : ∀ e ∈ definitions, e.2.refineFree) (bound handle : Nat) :
    (Store.running Decoder.Accurate).Accurate ((Resolver.ofDecoders
      (Store.resolve decoders.interpretation definitions)).followCheck bound handle) := by
  induction bound generalizing handle with
  | zero =>
    intro v _ s _ result s' hRun
    cases hRun
  | succ n ih =>
    intro v hv
    have hResolve := Store.resolve_promise (fun e he => Schema.build_accurate (hFree e he)) handle
    apply (Store.running Decoder.Accurate).bind hResolve
    intro d hd
    exact hd _ _ _ ih v hv

/-- Every rejected value stands in the input where its path says, null standing for what is missing, and
an optional step of the path goes to something that is there. -/
theorem failure_paths_lead_to_values (hFree : ∀ e ∈ definitions, e.2.refineFree)
    (hSchema : schema.refineFree) {bound : Nat} {v : Value} (hKeys : v.WellKeyed) {e : Failures String}
    (hRun : decoders.fresh definitions bound schema v = some (.error e)) :
    ∀ r ∈ Failures.rejections e, r.path.walk v = some r.actual ∧ r.path.Grounded v := by
  have hAnswer : (Store.running Decoder.Accurate).Holds (decoders.answer definitions bound schema v)
      (Decoded.Accurate v) := by
    apply (Store.running Decoder.Accurate).bind (Store.build_promise (Schema.build_accurate hSchema))
    intro d hd
    exact hd _ _ _ (follow_accurate hFree bound) v hKeys
  obtain ⟨⟨result, s⟩, hAnswered, hResult⟩ := Option.map_eq_some_iff.mp hRun
  obtain ⟨_, hAccurate⟩ := hAnswer Store.empty Store.all_empty result s hAnswered
  cases hResult
  intro r hr
  have hPoints := hAccurate r hr
  exact ⟨hPoints.walk_eq, hPoints.grounded⟩

end Interpreter

namespace Trees

def overgrown : Value := .obj [("rest", .arr [.null, .null, .bool true])]

def overgrownFailures : Failures String :=
  .join (.single (.key "label" .required (.single (.leaf .null "string"))))
    (.single (.key "rest" .required (.single (.index 2 .optional (.single (.leaf (.bool true) "never"))))))

theorem overgrown_fails :
    Interpreter.decoders.fresh definitions 1 schema overgrown = some (.error overgrownFailures) := by
  have hRun : Interpreter.decoders.fresh definitions 1 schema overgrown = some (.error
      (.joinAll (.single (.key "label" .required (.single (.leaf .null "string"))))
        [.single (.key "rest" .required
          (.joinAll (.single (.index 2 .optional (.single (.leaf (.bool true) "never")))) []))])) := rfl
  rw [hRun]
  simp only [Accum.joinAll, Accum.pairUp, overgrownFailures]

theorem overgrown_wellKeyed : overgrown.WellKeyed :=
  ⟨by decide, ⟨trivial, trivial, trivial, trivial⟩, trivial⟩

theorem overgrown_paths_lead_to_values :
    Interpreter.decoders.fresh definitions 1 schema overgrown = some (.error overgrownFailures) ∧
      ∀ r ∈ Failures.rejections overgrownFailures,
        r.path.walk overgrown = some r.actual ∧ r.path.Grounded overgrown := by
  have hFree : ∀ e ∈ definitions, e.2.refineFree := by
    intro e he
    cases List.mem_singleton.mp he
    rfl
  have hRefuses :=
    Interpreter.failure_paths_lead_to_values hFree rfl overgrown_wellKeyed overgrown_fails
  exact ⟨overgrown_fails, hRefuses⟩

end Trees

end JsonShapes
