import JsonShapes.Proofs.Memoization.Replays
import JsonShapes.Proofs.Repetition.Encoders
import JsonShapes.Proofs.Termination.Encoding

/-! # Encoding what has been encoded

An encoder is run on what it has written, in the store that its first run has left behind or in any that comes later.
If this comes to an end nothing is changed, so that there is one question left, whether it does. The first run may
have passed over a reference that the second one has to follow: an overridden declaration is given what another one
has written, not what it has written itself.
-/
namespace JsonShapes
set_option autoImplicit false

namespace Interpreter
variable {definitions : Definitions} {schemas : Schema → Prop} {ends : Prop}
variable {s s' t : Store (Encoder Nat)} {shapes shapes' : List (Encoder Nat)} {e : Encoder Nat} {v w : Value}

theorem encoders_running {P : Encoder Nat → Prop}
    (hBuilt : ∀ e ∈ definitions, (Store.building P).Holds (e.2.build encoders.interpretation) P) (bound : Nat)
    (e : Encoder Nat) (v : Value) : (Store.running P).Holds (encoders.perform definitions bound e v) fun _ => True := by
  have hResolver : Resolver.InLockstep (.promised (Store.running P) Option)
      (Resolver.ofEncoders (Store.resolve encoders.interpretation definitions))
      (Resolver.ofEncoders fun _ => none) := {
    stop := fun _ _ _ _ h => nomatch h
    guard := fun _ _ _ _ _ h => nomatch h
    decoder := fun _ _ _ _ _ h => nomatch h
    encoder := fun handle s hAll r s' h => ⟨(Store.resolve_promise hBuilt handle s hAll r s' h).1, trivial⟩ }
  exact hResolver.encode bound e v

section
variable (hUnmerged : definitions.Everywhere Schema.Unmerged schemas)
variable (hDistinct : ends → definitions.Everywhere Schema.Distinct schemas)
include hUnmerged hDistinct

theorem perform_repeating (bound : Nat) (e : Encoder Nat) (v : Value) :
    (Store.running (Encoder.Repeating ends)).Holds (encoders.perform definitions bound e v) fun _ => True := by
  refine encoders_running (fun p hp => Schema.build_closedAt fun t ht => ?_) bound e v
  have hMem := Schema.mem_nodesNamed hp ht
  exact Schema.encoding_repeating (hUnmerged.definitions t hMem) fun hEnds => (hDistinct hEnds).definitions t hMem

/-- Whatever is found in the store is read from the schemas or the definitions. -/
theorem Reached.repeating (h : encoders.Reached definitions schemas s shapes) :
    s.All (Encoder.Repeating ends) ∧ ∀ e ∈ shapes, e.Repeating ends := by
  refine h.all (fun schema hSchema => Schema.build_closedAt fun t ht => ?_)
    fun bound e v _ _ => perform_repeating hUnmerged hDistinct bound e v
  exact Schema.encoding_repeating (hUnmerged.schemas schema hSchema t ht) fun hEnds =>
    (hDistinct hEnds).schemas schema hSchema t ht

end

theorem encodeSettled_repeats (hAll : s.All (Encoder.Repeating ends)) (he : e.Repeating ends) {m n : Nat}
    (hBound : ends → m ≤ n) : Transform.Repeats ends (encodeSettled s m e) (encodeSettled s n e) := by
  refine Resolver.encode_repeats (fun handle e hSettled => ?_) hBound he
  obtain ⟨d, hDefinition, hValue⟩ := Option.bind_eq_some_iff.mp hSettled
  exact hAll.values d (List.mem_of_getElem? hDefinition) e hValue

section
variable (hUnmerged : definitions.Everywhere Schema.Unmerged schemas)
variable (hReached : encoders.Reached definitions schemas s shapes) (he : e ∈ shapes) (hKeys : v.WellKeyed)
variable {bound : Nat} (hEncoded : (encoders.perform definitions bound e v).run s = some (w, t))
variable (hLater : encoders.Uses definitions schemas (t, shapes) (s', shapes'))
include hUnmerged hReached he hKeys hEncoded hLater

theorem encoded_same {bound' : Nat} {w' : Value} {t' : Store (Encoder Nat)}
    (hAgain : (encoders.perform definitions bound' e w).run s' = some (w', t')) : w' = w := by
  have hReached' : encoders.Reached definitions schemas s' shapes' :=
    hReached.trans (.head (.run he hKeys hEncoded) hLater)
  have hAnyway : False → definitions.Everywhere Schema.Distinct schemas := False.elim
  have hAll := (hReached'.repeating hUnmerged hAnyway).1
  have hAll' := (perform_repeating hUnmerged hAnyway bound' e w s' hAll w' t' hAgain).1
  have hRepeats : Transform.Repeats False (encodeSettled t' bound e) (encodeSettled t' bound' e) :=
    encodeSettled_repeats hAll' ((hReached.repeating hUnmerged hAnyway).2 e he) False.elim
  -- What both runs have found is settled where the second has ended.
  exact hRepeats.same hKeys (encodeSettled_of_perform hEncoded (hLater.grows.trans (perform_grows hAgain)))
    (encodeSettled_of_perform hAgain (.refl _))

theorem encoded_again (hDistinct : definitions.Everywhere Schema.Distinct schemas) {bound' : Nat}
    (hBound : bound ≤ bound') : (encoders.perform definitions bound' e w).run s' = some (w, s') := by
  have hReached' : encoders.Reached definitions schemas s' shapes' :=
    hReached.trans (.head (.run he hKeys hEncoded) hLater)
  have hEverywhere : True → definitions.Everywhere Schema.Distinct schemas := fun _ => hDistinct
  have hRepeats : Transform.Repeats True (encodeSettled s' bound e) (encodeSettled s' bound' e) :=
    encodeSettled_repeats (hReached'.repeating hUnmerged hEverywhere).1
      ((hReached.repeating hUnmerged hEverywhere).2 e he) fun _ => hBound
  exact perform_of_encodeSettled (hRepeats.again trivial hKeys (encodeSettled_of_perform hEncoded hLater.grows))

theorem encoded_rewritable (hRewritable : definitions.Everywhere (Schema.Rewritable definitions) schemas)
    {A : Assignment} (hDefinitions : definitions.Follow A) (hSchemas : ∀ schema, schemas schema → schema.Follows A) :
    ∃ enough, ∀ bound', enough ≤ bound' →
      ∃ t', (encoders.perform definitions bound' e w).run s' = some (w, t') := by
  have hReached' : encoders.Reached definitions schemas s' shapes' :=
    hReached.trans (.head (.run he hKeys hEncoded) hLater)
  have hSound := hReached.sound encoders_faithful hDefinitions hSchemas
  have hSound' := hReached'.sound encoders_faithful hDefinitions hSchemas
  have hExtends : s.Extends s' := ((perform_grows hEncoded).trans hLater.grows).places
  obtain ⟨schema, hSchema, hRead⟩ := hSound.shapes e he
  have hAnswers := fun bound' u => encoders_faithful hDefinitions (hSchemas schema hSchema) hRead bound' u
  have hFirst : schema.encode definitions bound v = some w := by
    rw [← (hAnswers bound v s hSound.store (.refl s)).result_eq, hEncoded]
    rfl
  have hThroughout : schema.Throughout definitions fun u => u.Unmerged ∧ u.Rewritable definitions :=
    fun u hu => ⟨hUnmerged.throughout hSchema u hu, hRewritable.throughout hSchema u hu⟩
  have hSecond := (schema.repeats bound hThroughout).again trivial hKeys hFirst
  obtain ⟨enough, hEnough⟩ := Schema.encode_of_write hSecond
  refine ⟨enough, fun bound' hBound => ?_⟩
  have hAgain := hAnswers bound' w s' hSound'.store hExtends
  rw [hEnough bound' hBound] at hAgain
  obtain ⟨t', hRun, _⟩ := hAgain
  exact ⟨t', hRun⟩

end

/-- What has been encoded is encoded as it is, however the interpreter is used in the meantime, if encoding it comes
to an end. It does so if no name is declared repeatedly, under the same bound and without reading anything more, and
also if what is overridden can encode what overrides it. -/
theorem encoding_repeats (hUnmerged : definitions.Everywhere Schema.Unmerged schemas)
    (hReached : encoders.Reached definitions schemas s shapes) (he : e ∈ shapes) (hKeys : v.WellKeyed) {bound : Nat}
    (hEncoded : (encoders.perform definitions bound e v).run s = some (w, t))
    (hLater : encoders.Uses definitions schemas (t, shapes) (s', shapes')) :
    (∀ bound' w' t', (encoders.perform definitions bound' e w).run s' = some (w', t') → w' = w) ∧
    (definitions.Everywhere Schema.Distinct schemas → ∀ bound', bound ≤ bound' →
      (encoders.perform definitions bound' e w).run s' = some (w, s')) ∧
    (definitions.Everywhere (Schema.Rewritable definitions) schemas →
      ∀ A, definitions.Follow A → (∀ schema, schemas schema → schema.Follows A) →
        ∃ enough, ∀ bound', enough ≤ bound' →
          ∃ t', (encoders.perform definitions bound' e w).run s' = some (w, t')) :=
  ⟨fun _ _ _ => encoded_same hUnmerged hReached he hKeys hEncoded hLater,
    fun hDistinct _ => encoded_again hUnmerged hReached he hKeys hEncoded hLater hDistinct,
    fun hRewritable _ => encoded_rewritable hUnmerged hReached he hKeys hEncoded hLater hRewritable⟩

/-- What an interpreter that has done nothing before makes of a schema, and the store that this leaves. -/
def encoderOf (schema : Schema) : Encoder Nat × Store (Encoder Nat) := (schema.build encoders.interpretation).run .empty

theorem encoderOf_reached (schema : Schema) :
    encoders.Reached definitions (· = schema) (encoderOf schema).2 [(encoderOf schema).1] :=
  .single (.build rfl rfl)

end Interpreter

namespace Threads
open Interpreter

def link : Link := ⟨"Thread", 0, "Thread"⟩

def post : Schema := .object [("replies", .array (.lazy link)), ("kind", .kind .string)]

def note : Schema := .partialObject [("text", .kind .string)]

def thread : Schema := .tagged "kind" [("post", post), ("note", note)]

def definitions : Definitions := [("Thread", thread)]

def assignment : Assignment := ⟨fun id _ => id, fun _ => .kind .null⟩

/-- Of the two declarations the first one has to end although it does not count. -/
def archive : Schema := .object [("thread", .nullable (.lazy link)), ("thread", .array (.lazy link))]

/-- The note loses its tag when it is encoded, and one of the replies is of no shape at all. -/
def posted : Value := .obj [("kind", .str "post"), ("votes", .num (.int 3)), ("replies", .arr
  [.obj [("kind", .str "note"), ("text", .str "a")], .bool true, .obj [("kind", .str "post")]])]

def written : Value := .obj [("replies", .arr [.obj [("text", .str "a")], .bool true,
  .obj [("replies", .arr []), ("kind", .str "post")]]), ("kind", .str "post")]

def collected : Value := .obj [("thread", .arr [posted])]

def archived : Value := .obj [("thread", .arr [written])]

theorem posted_wellKeyed : posted.WellKeyed :=
  ⟨by decide, trivial, trivial,
    ⟨⟨by decide, trivial, trivial, trivial⟩, trivial, ⟨by decide, trivial, trivial⟩, trivial⟩, trivial⟩

theorem collected_wellKeyed : collected.WellKeyed := ⟨by decide, ⟨posted_wellKeyed, trivial⟩, trivial⟩

theorem definitions_follow : definitions.Follow assignment := by
  intro e he
  cases List.mem_singleton.mp he
  constructor
  · simp [thread, post, note, Schema.links, Schema.linksNamed, link, assignment]
  · simp [thread, post, note, Schema.keyed, Schema.keyedNamed]

theorem archive_follows : archive.Follows assignment := by
  constructor
  · simp [archive, Schema.links, Schema.linksNamed, link, assignment]
  · simp [archive, Schema.keyed, Schema.keyedNamed]

theorem thread_unmerged : definitions.Everywhere Schema.Unmerged (· = thread) := by
  have hThread : ∀ t ∈ thread.nodes, t.Unmerged := by
    simp [thread, post, note, Schema.nodes, Schema.nodesNamed, Schema.Unmerged]
  exact ⟨fun s hs => hs ▸ hThread, by simpa [definitions, Schema.nodesNamed] using hThread⟩

theorem thread_distinct : definitions.Everywhere Schema.Distinct (· = thread) := by
  have hThread : ∀ t ∈ thread.nodes, t.Distinct := by
    simp [thread, post, note, Schema.nodes, Schema.nodesNamed, Schema.Distinct, Entries.keys]
  exact ⟨fun s hs => hs ▸ hThread, by simpa [definitions, Schema.nodesNamed] using hThread⟩

theorem archive_unmerged : definitions.Everywhere Schema.Unmerged (· = archive) := by
  have hArchive : ∀ t ∈ archive.nodes, t.Unmerged := by
    simp [archive, Schema.nodes, Schema.nodesNamed, Schema.Unmerged]
  exact ⟨fun s hs => hs ▸ hArchive, thread_unmerged.definitions⟩

/-- Encoding an array by a thread leaves it as it is. -/
theorem archive_rewritable : definitions.Everywhere (Schema.Rewritable definitions) (· = archive) := by
  have hArchive : archive.Rewritable definitions := by
    intro e he last hLast
    have hArray : last = .array (.lazy link) := by
      rcases List.mem_pair.mp he with rfl | rfl <;> exact (Option.some.inj hLast).symm
    subst hArray
    rcases List.mem_pair.mp he with rfl | rfl
    · refine .inr fun v w w' _ _ hEncoded => ?_
      obtain ⟨bound, hEncoded⟩ := hEncoded
      rw [Schema.encode_array] at hEncoded
      obtain ⟨items, _, rfl⟩ := Transform.array_eq_some_iff.mp hEncoded
      exact ⟨.arr items, 1, rfl⟩
    · exact .inl rfl
  constructor
  · rintro s rfl t ht
    have hNodes : archive.nodes = [archive, .nullable (.lazy link), .lazy link, .array (.lazy link), .lazy link] := rfl
    simp only [hNodes, List.mem_cons, List.not_mem_nil, or_false] at ht
    rcases ht with rfl | rfl | rfl | rfl | rfl
    · exact hArchive
    all_goals trivial
  · exact fun t ht => (thread_distinct.definitions t ht).rewritable

/-- Both are encoded again: a thread under every bound that was enough, an archive under every large one. -/
theorem threads_encoded_again :
    (∃ t, (encoders.perform definitions 1 (encoderOf thread).1 posted).run (encoderOf thread).2 = some (written, t) ∧
      ∀ bound, 1 ≤ bound →
        (encoders.perform definitions bound (encoderOf thread).1 written).run t = some (written, t)) ∧
    ∃ t, (encoders.perform definitions 2 (encoderOf archive).1 collected).run (encoderOf archive).2 =
        some (archived, t) ∧
      ∃ enough, ∀ bound, enough ≤ bound →
        ∃ t', (encoders.perform definitions bound (encoderOf archive).1 archived).run t = some (archived, t') := by
  constructor
  · obtain ⟨t, hEncoded⟩ : ∃ t, (encoders.perform definitions 1 (encoderOf thread).1 posted).run
        (encoderOf thread).2 = some (written, t) := ⟨_, rfl⟩
    exact ⟨t, hEncoded, (encoding_repeats thread_unmerged (encoderOf_reached thread) List.mem_cons_self
      posted_wellKeyed hEncoded .refl).2.1 thread_distinct⟩
  · obtain ⟨t, hEncoded⟩ : ∃ t, (encoders.perform definitions 2 (encoderOf archive).1 collected).run
        (encoderOf archive).2 = some (archived, t) := ⟨_, rfl⟩
    exact ⟨t, hEncoded, (encoding_repeats archive_unmerged (encoderOf_reached archive) List.mem_cons_self
      collected_wellKeyed hEncoded .refl).2.2 archive_rewritable assignment definitions_follow
      fun _ hSchema => hSchema ▸ archive_follows⟩

end Threads

namespace Chains
open Interpreter

/-- The first of the declarations does not count, and it passes over null only. -/
def guarded : Schema := .object [("first", .nullable (.lazy link)), ("first", .object [])]

def guardedNull : Value := .obj [("first", .obj [])]

theorem guarded_unmerged : definitions.Everywhere Schema.Unmerged (· = guarded) := by
  constructor
  · rintro s rfl
    simp [guarded, Schema.nodes, Schema.nodesNamed, Schema.Unmerged]
  · simp [definitions, chain, Schema.nodes, Schema.nodesNamed, Schema.Unmerged]

theorem guarded_follows : guarded.Follows assignment := by
  constructor
  · simp [guarded, Schema.links, Schema.linksNamed, link, assignment]
  · simp [guarded, Schema.keyed, Schema.keyedNamed]

theorem encode_guarded_eq_none (bound : Nat) : guarded.encode definitions bound guardedNull = none := by
  rw [Option.eq_none_iff_forall_ne_some]
  intro w hw
  rw [guarded, Schema.encode_object] at hw
  obtain ⟨a, hFirst⟩ := Transform.object_ends_iff.mp ⟨w, hw⟩ _ List.mem_cons_self
  rw [Schema.encode_nullable] at hFirst
  have hLink : (Schema.lazy link).encode definitions bound (.obj []) = some a := hFirst
  cases bound with
  | zero => cases hLink
  | succ n =>
    have hChain : chain.encode definitions n (.obj []) = some a := hLink
    rw [chain, Schema.encode_object] at hChain
    obtain ⟨b, hNext⟩ := Transform.object_ends_iff.mp ⟨a, hChain⟩ _ List.mem_cons_self
    cases (Schema.encode_cycle_eq_none chain_cyclic n).symm.trans hNext

/-- Null is encoded without following the link, and what it becomes is not encoded under any bound. -/
theorem encoded_never_again : definitions.Everywhere Schema.Unmerged (· = guarded) ∧ Value.null.WellKeyed ∧
    ∃ t, (encoders.perform definitions 0 (encoderOf guarded).1 .null).run (encoderOf guarded).2 =
        some (guardedNull, t) ∧
      ∀ bound, (encoders.perform definitions bound (encoderOf guarded).1 guardedNull).run t = none := by
  have hKeys : Value.null.WellKeyed := trivial
  refine ⟨guarded_unmerged, hKeys, ?_⟩
  obtain ⟨t, hEncoded⟩ : ∃ t, (encoders.perform definitions 0 (encoderOf guarded).1 .null).run
      (encoderOf guarded).2 = some (guardedNull, t) := ⟨_, rfl⟩
  have hReached : encoders.Reached definitions (· = guarded) t [(encoderOf guarded).1] :=
    .tail (encoderOf_reached guarded) (.run List.mem_cons_self hKeys hEncoded)
  have hFollow : ∀ schema, schema = guarded → schema.Follows assignment := fun _ hSchema => hSchema ▸ guarded_follows
  have hSound := hReached.sound encoders_faithful definitions_follow hFollow
  obtain ⟨_, rfl, hRead⟩ := hSound.shapes _ List.mem_cons_self
  refine ⟨t, hEncoded, fun bound => ?_⟩
  have hAnswer := encoders_faithful definitions_follow guarded_follows hRead bound guardedNull t hSound.store (.refl t)
  rw [encode_guarded_eq_none] at hAnswer
  exact hAnswer

end Chains

end JsonShapes
