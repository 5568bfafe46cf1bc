import JsonShapes.Proofs.Agreement
import JsonShapes.Proofs.Closed
import JsonShapes.Proofs.Successes
import JsonShapes.Proofs.WellKeyed

/-! # Decoding only leaves out

What a value is decoded to is a projection of it: scalars are unchanged, an object may lack properties and
an array has every element, and whatever was not there before is null. Decoders have this property as soon
as the decoders behind their references do, whichever these are, so nothing is assumed of the thunks and
keys that schemas share.
-/
namespace JsonShapes
set_option autoImplicit false

namespace Value

/-- The first value is a projection of the second. What the second lacks is null in it, and null has no
other projection than null. -/
inductive ProjectionOf : Value → Value → Prop
  | null : ProjectionOf .null .null
  | bool (b : Bool) : ProjectionOf (.bool b) (.bool b)
  | num (n : Number) : ProjectionOf (.num n) (.num n)
  | str (s : String) : ProjectionOf (.str s) (.str s)
  | arr {xs ys : List Value} : ys.length ≤ xs.length →
    (∀ (i : Nat) x, xs[i]? = some x → ProjectionOf x (ys[i]?.getD .null)) → ProjectionOf (.arr xs) (.arr ys)
  | obj {xs ys : List (String × Value)} :
    (∀ e ∈ xs, ProjectionOf e.2 ((Entries.get? ys e.1).getD .null)) → ProjectionOf (.obj xs) (.obj ys)

namespace ProjectionOf
variable {v w : Value} {xs ys : List (String × Value)}

theorem kind_eq (h : w.ProjectionOf v) : w.kind = v.kind := by cases h <;> rfl

theorem exists_entries {V : Entries Value} (h : w.ProjectionOf (.obj V)) :
    ∃ A : Entries Value, w = .obj A := by
  cases h
  exact ⟨_, rfl⟩

theorem eq_null (h : w.ProjectionOf .null) : w = .null := by
  cases h
  rfl

theorem input_null (h : ProjectionOf Value.null v) : v = .null := by
  cases h
  rfl

theorem eq_str {s : String} (h : w.ProjectionOf (.str s)) : w = .str s := by
  cases h
  rfl

theorem property (h : (Value.obj xs).ProjectionOf (.obj ys)) {name : String} {x : Value}
    (hx : Entries.get? xs name = some x) : x.ProjectionOf ((Entries.get? ys name).getD .null) := by
  cases h with
  | obj hEach => exact hEach (name, x) (Entries.mem_of_get? hx)

/-- A tag that is kept is the tag of the input. -/
theorem get?_str (h : w.ProjectionOf v) {name s : String} {x : Value} (hv : v.get? name = some (.str s))
    (hw : w.get? name = some x) : x = .str s := by
  cases h with
  | obj hEach =>
    have hProjection := hEach (name, x) (Entries.mem_of_get? hw)
    have hv : Entries.get? _ name = some (Value.str s) := hv
    rw [hv] at hProjection
    exact hProjection.eq_str
  | _ => cases hv

theorem refl (hv : v.WellKeyed) : v.ProjectionOf v := by
  induction v using parts_induction with
  | step v ih =>
    cases v with
    | null => exact .null
    | bool b => exact .bool b
    | num n => exact .num n
    | str s => exact .str s
    | arr items =>
      refine .arr (Nat.le_refl _) fun i x hx => ?_
      have hMem := List.mem_of_getElem? hx
      rw [hx]
      exact ih x hMem (WellKeyedItems.mem hv x hMem)
    | obj entries =>
      refine .obj fun e he => ?_
      rw [hv.get?_eq he]
      exact ih e.2 (List.mem_map_of_mem he) (hv.2.mem e he)

theorem merge {a b : Value} (ha : a.ProjectionOf v) (hb : b.ProjectionOf v) :
    (a.merge b).ProjectionOf v := by
  cases ha with
  | obj hLeft =>
    cases hb with
    | obj hRight =>
      refine .obj fun e he => ?_
      rcases Entries.mem_merge he with he | he
      · exact hLeft e he
      · exact hRight e he
  | _ => exact hb

end ProjectionOf

/-- Names no entry twice and is a projection of `v`. -/
structure ProjectedFrom (v w : Value) : Prop where
  wellKeyed : w.WellKeyed
  projection : w.ProjectionOf v

namespace ProjectedFrom
variable {v a b : Value}

theorem refl (hv : v.WellKeyed) : v.ProjectedFrom v := ⟨hv, .refl hv⟩

theorem obj {entries fields : List (String × Value)} (hKeys : (Entries.keys fields).Nodup)
    (h : ∀ e ∈ fields, ((Entries.get? entries e.1).getD .null).ProjectedFrom e.2) :
    (Value.obj entries).ProjectedFrom (.obj fields) where
  wellKeyed := ⟨hKeys, .of_mem fun e he => (h e he).wellKeyed⟩
  projection := .obj fun e he => (h e he).projection

theorem arr {items decoded : List Value} (hLength : items.length ≤ decoded.length)
    (h : ∀ (i : Nat) a, decoded[i]? = some a → (items[i]?.getD .null).ProjectedFrom a) :
    (Value.arr items).ProjectedFrom (.arr decoded) where
  wellKeyed := by
    apply WellKeyedItems.of_mem
    intro a ha
    obtain ⟨i, hi⟩ := List.mem_iff_getElem?.mp ha
    exact (h i a hi).wellKeyed
  projection := .arr hLength fun i a ha => (h i a ha).projection

theorem merge (ha : v.ProjectedFrom a) (hb : v.ProjectedFrom b) : v.ProjectedFrom (a.merge b) where
  wellKeyed := ha.wellKeyed.merge hb.wellKeyed
  projection := ha.projection.merge hb.projection

end ProjectedFrom

end Value

/-! ## Checks -/

def Decoded.ProjectsFrom (v : Value) (result : Decoded Value) : Prop :=
  ∀ w, result = .ok w → v.ProjectedFrom w

namespace Decoded.ProjectsFrom
variable {v : Value}

theorem same (hv : v.WellKeyed) : ProjectsFrom v (.ok v) := by
  intro w hResult
  cases hResult
  exact .refl hv

theorem error (e : Failures String) : ProjectsFrom v (.error e) := by
  intro w hResult
  cases hResult

theorem mapFailures {result : Decoded Value} (h : result.ProjectsFrom v)
    (f : Failures String → Failures String) : ProjectsFrom v (Checked.mapFailures f result) := by
  cases result with
  | ok w => exact h
  | error e => exact error _

end Decoded.ProjectsFrom

namespace Promises
variable {m : Type → Type} [Monad m] (E : Promises m) {α τ : Type}

theorem collectIndexed (P : Nat → α → Prop) {items : List τ} {f : Nat → τ → m (Decoded α)}
    (h : ∀ (i : Nat) x, items[i]? = some x → E.Holds (f i x) fun r => ∀ a, r = .ok a → P i a) :
    E.Holds (Checked.traverseIndexed items f) fun r => ∀ as, r = .ok as →
      items.length = as.length ∧ ∀ (i : Nat) a, as[i]? = some a → P i a := by
  have hEach : ∀ item ∈ items.zipIdx,
      E.Holds (f item.2 item.1) fun r => ∀ a, r = .ok a → P item.2 a :=
    fun item hItem => h item.2 item.1 (List.mem_zipIdx_iff_getElem?.mp hItem)
  have hRuns : E.Holds (items.zipIdx.mapM fun item => f item.2 item.1)
      fun results => ∀ as, Checked.collect results = .ok as →
        items.length = as.length ∧ ∀ (i : Nat) a, as[i]? = some a → P i a := by
    apply E.mapM_each hEach
    intro results hResults as hOk
    rw [Checked.collect_eq_ok_iff.mp hOk, List.forall₂_map_right_iff] at hResults
    have hPlaces : List.Forall₂ (fun item a => P item.2 a) items.zipIdx as :=
      hResults.imp fun _ a hPlace => hPlace a rfl
    obtain ⟨hLength, hAt⟩ : items.length = as.length ∧
        ∀ (i : Nat) x a, items[i]? = some x → as[i]? = some a → P i a := forall₂_zipIdx_iff.mp hPlaces
    refine ⟨hLength, ?_⟩
    intro i a ha
    obtain ⟨hi, _⟩ := List.getElem?_eq_some_iff.mp ha
    exact hAt i _ a (List.getElem?_eq_getElem (hLength ▸ hi)) ha
  exact E.bind hRuns fun results hResults => E.pure hResults

theorem collectKeyed (P : String → α → Prop) {entries : Entries τ} {f : String → τ → m (Decoded α)}
    (h : ∀ e ∈ entries, E.Holds (f e.1 e.2) fun r => ∀ a, r = .ok a → P e.1 a) :
    E.Holds (Checked.traverseKeyed entries f) fun r => ∀ as, r = .ok as →
      as.keys.Nodup ∧ ∀ e ∈ as, P e.1 e.2 := by
  have hEach : ∀ e ∈ entries, E.Holds (do
      let result ← f e.1 e.2
      return result.map fun a => (e.1, a)) fun r => ∀ field, r = .ok field → P field.1 field.2 := by
    intro e he
    apply E.bind (h e he)
    intro result hResult
    apply E.pure
    intro field hField
    obtain ⟨a, hOk, rfl⟩ := Checked.map_eq_ok_iff.mp hField
    exact hResult a hOk
  apply E.bind (E.mapM hEach)
  intro results hResults
  apply E.pure
  intro as hOk
  obtain ⟨fields, hFields, rfl⟩ := Checked.map_eq_ok_iff.mp hOk
  rw [Checked.collect_eq_ok_iff.mp hFields] at hResults
  refine ⟨Entries.nodup_keys_ofList fields, ?_⟩
  intro e he
  exact hResults (.ok e) (List.mem_map_of_mem (Entries.mem_of_mem_ofList he)) e rfl

/-- Whatever the check decodes a value to is a projection of this value. -/
def Projecting (check : Check m) : Prop :=
  ∀ v, v.WellKeyed → E.Holds (check v) (Decoded.ProjectsFrom v)

namespace Projecting
variable {E} {check left right : Check m} {v : Value}

theorem located (h : E.Projecting check) (hv : v.WellKeyed) (locate : Failures String → Failure String) :
    E.Holds (do return Decoded.within locate (← check v)) (Decoded.ProjectsFrom v) :=
  E.bind (h v hv) fun _ hResult => E.pure (hResult.mapFailures _)

/-- What passes a test stays as it is. -/
theorem guarded {test : Test m} (hTest : ∀ v, E.Holds (test v) fun _ => True) (expected : String) :
    E.Projecting (Check.guarded test expected) := by
  intro v hv
  apply E.bind (hTest v)
  intro passed _
  cases passed with
  | true => exact E.pure (.same hv)
  | false => exact E.pure (.error _)

theorem literal (values : List Value) : E.Projecting (Check.literal values) := by
  intro v hv
  apply E.pure
  split
  · exact .same hv
  · exact .error _

theorem lazy (id : String) (h : E.Projecting check) : E.Projecting (Check.lazy id check) :=
  fun _ hv => h.located hv (.lazy id)

theorem nullable (h : E.Projecting check) : E.Projecting (Check.nullable check) := by
  intro v hv
  cases v with
  | null => exact E.pure (.same hv)
  | _ =>
    apply E.bind (h _ hv)
    intro result hResult
    cases result with
    | ok w => exact E.pure hResult
    | error e => exact E.pure (.error _)

/-- An object whose properties are decoded from those of the same name. -/
theorem fields {τ : Type} {entries : List (String × Value)} {slots : Entries τ}
    {f : String → τ → m (Decoded Value)} (h : ∀ slot ∈ slots, E.Holds (f slot.1 slot.2)
      (Decoded.ProjectsFrom ((Entries.get? entries slot.1).getD .null))) :
    E.Holds (do return (← Checked.traverseKeyed slots f).map .obj) (Decoded.ProjectsFrom (.obj entries)) := by
  apply E.bind (E.collectKeyed (fun name => ((Entries.get? entries name).getD .null).ProjectedFrom) h)
  intro decoded hDecoded
  apply E.pure
  intro w hw
  obtain ⟨fields, hOk, rfl⟩ := Checked.map_eq_ok_iff.mp hw
  obtain ⟨hKeys, hFields⟩ := hDecoded fields hOk
  exact .obj hKeys hFields

theorem object {props : Entries (Check m)} (h : ∀ p ∈ props, E.Projecting p.2) :
    E.Projecting (Check.object props) := by
  intro v hv
  cases v with
  | obj entries => exact fields fun p hp => (h p hp).located (hv.property p.1) _
  | _ => exact E.pure (.error _)

theorem partialObject {props : Entries (Check m)} (h : ∀ p ∈ props, E.Projecting p.2) :
    E.Projecting (Check.partialObject props) := by
  intro v hv
  cases v with
  | obj entries =>
    refine fields ?_
    intro slot hSlot
    obtain ⟨p, hp, hSlot⟩ := List.mem_filterMap.mp hSlot
    obtain ⟨raw, hRaw, rfl⟩ := Option.map_eq_some_iff.mp hSlot
    have hProperty := hv.property p.1
    rw [hRaw] at hProperty ⊢
    cases raw with
    | null => exact E.pure (.same hProperty)
    | _ => exact (h p hp).located hProperty _
  | _ => exact E.pure (.error _)

theorem record (h : E.Projecting check) : E.Projecting (Check.record check) := by
  intro v hv
  cases v with
  | obj entries =>
    refine fields ?_
    intro e he
    rw [hv.get?_eq he]
    exact h.located (hv.2.mem e he) _
  | _ => exact E.pure (.error _)

theorem array (h : E.Projecting check) : E.Projecting (Check.array check) := by
  intro v hv
  cases v with
  | arr items =>
    have hItems : ∀ (i : Nat) x, items[i]? = some x → E.Holds
        (do return Decoded.within (.index i .optional) (← check x))
        (Decoded.ProjectsFrom (items[i]?.getD .null)) := by
      intro i x hx
      rw [hx]
      exact h.located (Value.WellKeyedItems.mem hv x (List.mem_of_getElem? hx)) _
    apply E.bind (E.collectIndexed (fun i => (items[i]?.getD .null).ProjectedFrom) hItems)
    intro values hValues
    apply E.pure
    intro w hw
    obtain ⟨decoded, hOk, rfl⟩ := Checked.map_eq_ok_iff.mp hw
    obtain ⟨hLength, hAt⟩ := hValues decoded hOk
    exact .arr (Nat.le_of_eq hLength) hAt
  | _ => exact E.pure (.error _)

theorem tuple {slots : List (Check m)} (h : ∀ slot ∈ slots, E.Projecting slot) :
    E.Projecting (Check.tuple slots) := by
  intro v hv
  cases v with
  | arr items =>
    have hSlots : ∀ (i : Nat) slot, slots[i]? = some slot → E.Holds
        (do return Decoded.within (.index i .required) (← slot (items[i]?.getD .null)))
        (Decoded.ProjectsFrom (items[i]?.getD .null)) :=
      fun i slot hSlot => (h slot (List.mem_of_getElem? hSlot)).located (hv.element i) _
    apply E.bind (E.collectIndexed (fun i => (items[i]?.getD .null).ProjectedFrom) hSlots)
    intro values hValues
    apply E.pure
    intro w hw
    obtain ⟨both, hBoth, rfl⟩ := Checked.map_eq_ok_iff.mp hw
    obtain ⟨hOk, hExtras⟩ := Checked.both_eq_ok_iff.mp hBoth
    obtain ⟨hLength, hAt⟩ := hValues both.1 hOk
    obtain ⟨hNoMore, _⟩ := Check.extras_eq_ok_iff.mp hExtras
    exact .arr (hLength ▸ hNoMore) hAt
  | _ => exact E.pure (.error _)

theorem firstOf {members : List (Check m)} (h : ∀ member ∈ members, E.Projecting member)
    (hv : v.WellKeyed) (start : Nat) :
    E.Holds (Check.firstOf v start members) fun r => ∀ w, r = .ok w → v.ProjectedFrom w := by
  induction members generalizing start with
  | nil =>
    apply E.pure
    intro w hw
    cases hw
  | cons member rest ih =>
    obtain ⟨hHead, hRest⟩ := List.forall_mem_cons.mp h
    apply E.bind (hHead v hv)
    intro result hResult
    cases result with
    | ok w =>
      apply E.pure
      intro w' hw'
      cases hw'
      exact hResult w rfl
    | error e =>
      apply E.bind (ih hRest (start + 1))
      intro others hOthers
      cases others with
      | ok w => exact E.pure hOthers
      | error es =>
        apply E.pure
        intro w hw
        cases hw

theorem union {members : List (Check m)} (h : ∀ member ∈ members, E.Projecting member) :
    E.Projecting (Check.union members) := by
  intro v hv
  apply E.bind (firstOf h hv 0)
  intro result hResult
  match result with
  | .ok w => exact E.pure fun w' hw' => hResult w' (congrArg Except.ok (Except.ok.inj hw'))
  | .error [] => exact E.pure (.error _)
  | .error (_ :: _) => exact E.pure (.error _)

theorem inter (hLeft : E.Projecting left) (hRight : E.Projecting right) :
    E.Projecting (Check.inter left right) := by
  intro v hv
  apply E.bind (hLeft v hv)
  intro inLeft hInLeft
  apply E.bind (hRight v hv)
  intro inRight hInRight
  apply E.pure
  intro w hw
  obtain ⟨⟨a, b⟩, hBoth, rfl⟩ := Checked.map_eq_ok_iff.mp hw
  obtain ⟨ha, hb⟩ := Checked.both_eq_ok_iff.mp hBoth
  exact (hInLeft a ha).merge (hInRight b hb)

theorem tagged (tag : String) {members : Entries (Check m)} (h : ∀ p ∈ members, E.Projecting p.2) :
    E.Projecting (Check.tagged tag members) := by
  intro v hv
  cases v with
  | obj entries =>
    simp only [Check.tagged]
    split
    · rename_i member hMember
      obtain ⟨name, hMem⟩ := Entries.mem_of_chosen hMember
      exact h _ hMem (.obj entries) hv
    · exact E.pure (.error _)
  | _ => exact E.pure (.error _)

/-- What a refinement accepts is what it would have been decoded to without it. -/
theorem refine (h : E.Projecting check) (holds : Value → Bool) (expected : String) :
    E.Projecting (Check.andThen check fun v w =>
      if holds v then .ok w else Decoded.reject w expected) := by
  intro v hv
  apply E.bind (h v hv)
  intro result hResult
  cases result with
  | error e => exact E.pure (.error e)
  | ok a =>
    apply E.pure
    intro w hw
    obtain ⟨_, rfl⟩ := Check.choose_eq_ok_iff.mp hw
    exact hResult w rfl

end Projecting
end Promises

/-! ## Decoders -/

/-- Wherever its references are followed to, if that projects, then so does the decoder. -/
def Decoder.Projecting {ρ : Type} (d : Decoder ρ) : Prop :=
  ∀ {m : Type → Type} [Monad m] (E : Promises m) (test : ρ → Test m) (follow : ρ → Check m),
    (∀ ref, E.Projecting (follow ref)) → E.Projecting (d.run test follow)

theorem Interpretation.decoding_projecting {σ : Type} :
    (decoding : Interpretation σ (Decoder σ)).Closed Decoder.Projecting where
  kind k _ _ E _ _ _ := .guarded (fun _ => E.pure trivial) k.expected
  literal values _ _ _ _ _ _ := .literal values
  nullable h _ _ E test follow hFollow := (h E test follow hFollow).nullable
  object h _ _ E test follow hFollow :=
    .object (Decoder.forall_mem_runNamed fun p hp => h p hp E test follow hFollow)
  partialObject h _ _ E test follow hFollow :=
    .partialObject (Decoder.forall_mem_runNamed fun p hp => h p hp E test follow hFollow)
  record h _ _ E test follow hFollow := (h E test follow hFollow).record
  array h _ _ E test follow hFollow := (h E test follow hFollow).array
  tuple h _ _ E test follow hFollow := .tuple (Decoder.forall_mem_runEach fun d hd => h d hd E test follow hFollow)
  union h _ _ E test follow hFollow := .union (Decoder.forall_mem_runEach fun d hd => h d hd E test follow hFollow)
  inter h h' _ _ E test follow hFollow := (h E test follow hFollow).inter (h' E test follow hFollow)
  tagged tag _ h _ _ E test follow hFollow :=
    .tagged tag (Decoder.forall_mem_runNamed fun p hp => h p hp E test follow hFollow)
  refine holds expected h _ _ E test follow hFollow := (h E test follow hFollow).refine holds expected
  lazy id ref _ _ _ _ _ hFollow := (hFollow ref).lazy id

namespace Schema
variable {definitions : Definitions} {bound : Nat} {v w : Value}

theorem followCheck_projecting (link : Link) :
    Promises.returned.Projecting ((Definitions.resolver definitions).followCheck bound link) := by
  induction bound generalizing link with
  | zero =>
    intro v _ result hRun
    cases hRun
  | succ n ih =>
    intro v hv
    have hDecoder : Promises.returned.Holds ((Definitions.resolver definitions).decoder link)
        Decoder.Projecting := by
      intro d hd
      obtain ⟨s, _, rfl⟩ := Option.map_eq_some_iff.mp hd
      exact s.unfold_closed Interpretation.decoding_projecting
    have hRun : ∀ d : Decoder Link, d.Projecting → Promises.returned.Holds
        (d.run ((Definitions.resolver definitions).followTest n)
          ((Definitions.resolver definitions).followCheck n) v) (Decoded.ProjectsFrom v) :=
      fun d hd => hd _ _ _ ih v hv
    exact Promises.returned.bind hDecoder hRun

theorem decode_projectedFrom {s : Schema} (hv : v.WellKeyed)
    (hRun : s.decode definitions bound v = some (.ok w)) : v.ProjectedFrom w := by
  have hDecoder : Decoder.Projecting (s.unfold .decoding) :=
    s.unfold_closed Interpretation.decoding_projecting
  exact hDecoder _ _ _ followCheck_projecting v hv _ hRun w rfl

end Schema

namespace Interpreter
variable {definitions : Definitions} {schema : Schema}

theorem follow_projecting (bound handle : Nat) :
    (Store.running Decoder.Projecting).Projecting ((Resolver.ofDecoders
      (Store.resolve decoders.interpretation definitions)).followCheck bound handle) := by
  induction bound generalizing handle with
  | zero =>
    intro v _ s _ result s' hRun
    cases hRun
  | succ n ih =>
    intro v hv
    have hBuilt : ∀ e ∈ definitions,
        (Store.building Decoder.Projecting).Holds (e.2.build decoders.interpretation) Decoder.Projecting :=
      fun e _ => e.2.build_closed Interpretation.decoding_projecting
    have hResolve := Store.resolve_promise hBuilt handle
    apply (Store.running Decoder.Projecting).bind hResolve
    intro d hd
    exact hd _ _ _ ih v hv

/-- Decoding never invents or alters anything. -/
theorem decoded_projection_of_input {bound : Nat} {v w : Value} (hKeys : v.WellKeyed)
    (hRun : decoders.fresh definitions bound schema v = some (.ok w)) : w.ProjectionOf v := by
  have hAnswer : (Store.running Decoder.Projecting).Holds (decoders.answer definitions bound schema v)
      (Decoded.ProjectsFrom v) := by
    have hBuild := schema.build_closed Interpretation.decoding_projecting
    apply (Store.running Decoder.Projecting).bind (Store.build_promise hBuild)
    intro d hd
    exact hd _ _ _ (follow_projecting bound) v hKeys
  obtain ⟨⟨result, s⟩, hAnswered, hResult⟩ := Option.map_eq_some_iff.mp hRun
  obtain ⟨_, hProjects⟩ := hAnswer Store.empty Store.all_empty result s hAnswered
  exact (hProjects w hResult).projection

end Interpreter

namespace Trees

theorem sapling_wellKeyed : sapling.WellKeyed := by
  refine ⟨by decide, trivial, ⟨trivial, ⟨by decide, trivial, trivial, trivial⟩, trivial⟩, trivial⟩

theorem sapling_decoded_projection :
    Interpreter.decoders.fresh definitions 1 schema sapling = some (.ok saplingDecoded) ∧
      saplingDecoded.ProjectionOf sapling := by
  have hDecoded : Interpreter.decoders.fresh definitions 1 schema sapling = some (.ok saplingDecoded) := rfl
  exact ⟨hDecoded, Interpreter.decoded_projection_of_input sapling_wellKeyed hDecoded⟩

end Trees

end JsonShapes
