import JsonShapes.Proofs.Closed
import JsonShapes.Proofs.Limits
import JsonShapes.Proofs.Repetition.Transforms
import JsonShapes.Proofs.Terms

/-! # Encoders that are run again

What holds of transforms that are done again holds of encoders, whether they are read from a schema in a store or
directly. Where names are not declared repeatedly the second run needs no larger bound than the first. Otherwise it
ends if what overrides a declaration writes what the declaration can write again.
-/
namespace JsonShapes
set_option autoImplicit false

open Transform (Repeats)

namespace Schema

/-- Not an intersection. -/
def Unmerged : Schema → Prop
  | inter _ _ => False
  | _ => True

/-- No name is declared repeatedly. -/
def Distinct : Schema → Prop
  | object props | partialObject props => (Entries.keys props).Nodup
  | _ => True

/-- The encoder comes to its end under some bound, and so under all larger ones. -/
def Encodes (definitions : Definitions) (s : Schema) (v w : Value) : Prop :=
  ∃ bound, s.encode definitions bound v = some w

/-- A declaration that is overridden can encode what the one that overrides it has made of a value that both can
encode. -/
def Rewritable (definitions : Definitions) : Schema → Prop
  | object props | partialObject props => ∀ e ∈ props, ∀ last, (Entries.ofList props).get? e.1 = some last →
    e.2 = last ∨ ∀ v w w', v.WellKeyed → e.2.Encodes definitions v w' → last.Encodes definitions v w →
      ∃ w'', e.2.Encodes definitions w w''
  | _ => True

theorem Distinct.rewritable {definitions : Definitions} {s : Schema} (h : s.Distinct) : s.Rewritable definitions := by
  have hLast : ∀ {props : List (String × Schema)}, (Entries.keys props).Nodup → ∀ e ∈ props, ∀ last,
      (Entries.ofList props).get? e.1 = some last → e.2 = last := by
    intro props hKeys e he last hLast
    rw [Entries.ofList_of_nodup hKeys, Entries.get?_of_mem hKeys he] at hLast
    exact Option.some.inj hLast
  cases s with
  | object props | partialObject props => exact fun e he last hFound => .inl (hLast h e he last hFound)
  | _ => trivial

end Schema

variable {ρ σ : Type} {ends : Prop}

/-- Wherever its references are followed to, if that repeats, then so does the encoder. -/
def Encoder.Repeating (ends : Prop) (e : Encoder ρ) : Prop :=
  ∀ f g : ρ → Transform Option, (∀ ref, Repeats ends (f ref) (g ref)) → Repeats ends (e.run f) (e.run g)

theorem Schema.encoding_repeating {s : Schema} (hUnmerged : s.Unmerged) (hDistinct : ends → s.Distinct) :
    (Interpretation.encoding : Interpretation σ (Encoder σ)).ClosedAt (Encoder.Repeating ends) s := by
  cases s with
  | kind _ | literal _ => exact fun _ _ _ => .id
  | union _ => exact fun _ _ _ _ => .id
  | nullable _ => exact fun he f g hFollow => (he f g hFollow).nullable
  | object props =>
    intro es hKeys hes f g hFollow
    have hEach : ∀ p ∈ es, Repeats ends (p.2.run f) (p.2.run g) := fun p hp => hes p hp f g hFollow
    change Repeats ends (Transform.object (Encoder.runNamed f es)) (Transform.object (Encoder.runNamed g es))
    rw [Encoder.runNamed_eq_mapValues, Encoder.runNamed_eq_mapValues]
    exact .object hEach fun hEnds => Repeats.redeclares hEach hEnds (hKeys ▸ hDistinct hEnds)
  | partialObject props =>
    intro es hKeys hes f g hFollow
    have hEach : ∀ p ∈ es, Repeats ends (p.2.run f) (p.2.run g) := fun p hp => hes p hp f g hFollow
    change Repeats ends (Transform.partialObject (Encoder.runNamed f es))
      (Transform.partialObject (Encoder.runNamed g es))
    rw [Encoder.runNamed_eq_mapValues, Encoder.runNamed_eq_mapValues]
    exact .partialObject hEach fun hEnds => Repeats.redeclares hEach hEnds (hKeys ▸ hDistinct hEnds)
  | record _ => exact fun he f g hFollow => (he f g hFollow).record
  | array _ => exact fun he f g hFollow => (he f g hFollow).array
  | tuple slots =>
    intro es hes f g hFollow
    change Repeats ends (Transform.tuple (Encoder.runEach f es)) (Transform.tuple (Encoder.runEach g es))
    rw [Encoder.runEach_eq_map, Encoder.runEach_eq_map]
    exact .tuple fun e he => hes e he f g hFollow
  | inter _ _ => cases hUnmerged
  | tagged tag members =>
    intro es _ hes f g hFollow
    change Repeats ends (Transform.tagged tag (Encoder.runNamed f es)) (Transform.tagged tag (Encoder.runNamed g es))
    rw [Encoder.runNamed_eq_mapValues, Encoder.runNamed_eq_mapValues]
    exact .tagged fun p hp => hes p hp f g hFollow
  | refine _ _ _ => exact fun he => he
  | lazy _ => exact fun ref _ _ hFollow => hFollow ref
  | make _ _ => trivial

namespace Resolver
variable {lookup : ρ → Option (Encoder ρ)} {m n : Nat}

theorem followTransform_none {ref : ρ} (h : lookup ref = none) :
    (ofEncoders lookup).followTransform n ref = fun _ => none := by
  cases n with
  | zero => rfl
  | succ n =>
    funext v
    change (lookup ref).bind (fun e => e.run _ v) = none
    rw [h]
    rfl

theorem followTransform_some {ref : ρ} {e : Encoder ρ} (h : lookup ref = some e) :
    (ofEncoders lookup).followTransform (n + 1) ref = e.run ((ofEncoders lookup).followTransform n) := by
  funext v
  change (lookup ref).bind (fun e => e.run _ v) = _
  rw [h]
  rfl

/-- The induction is on the bound of the first run; the second may have another one, but to end it must not have
less. -/
theorem followTransform_repeats (h : ∀ ref e, lookup ref = some e → e.Repeating ends) (hBound : ends → m ≤ n)
    (ref : ρ) :
    Repeats ends ((ofEncoders lookup).followTransform m ref) ((ofEncoders lookup).followTransform n ref) := by
  induction m generalizing n ref with
  | zero => exact .never _
  | succ m ih =>
    cases hFound : lookup ref with
    | none =>
      rw [followTransform_none hFound]
      exact .never _
    | some e =>
      rw [followTransform_some hFound]
      cases n with
      | zero =>
        have hEndless : ¬ends := fun hEnds => Nat.not_succ_le_zero m (hBound hEnds)
        exact (h ref e hFound _ _ (ih fun _ => Nat.le_refl m)).stop hEndless
      | succ n =>
        rw [followTransform_some hFound]
        exact h ref e hFound _ _ (ih fun hEnds => Nat.le_of_succ_le_succ (hBound hEnds))

theorem encode_repeats (h : ∀ ref e, lookup ref = some e → e.Repeating ends) (hBound : ends → m ≤ n) {e : Encoder ρ}
    (he : e.Repeating ends) : Repeats ends ((ofEncoders lookup).encode m e) ((ofEncoders lookup).encode n e) :=
  he _ _ (followTransform_repeats h hBound)

end Resolver

/-! ## Direct evaluation -/

namespace Schema
variable {definitions : Definitions} {n : Nat}

theorem redeclares_of_rewritable {props : List (String × Schema)}
    (hEach : ∀ e ∈ props, Repeats True (e.2.encode definitions n) (e.2.write definitions))
    (h : ∀ e ∈ props, ∀ last, (Entries.ofList props).get? e.1 = some last →
      e.2 = last ∨ ∀ v w w', v.WellKeyed → e.2.Encodes definitions v w' → last.Encodes definitions v w →
        ∃ w'', e.2.Encodes definitions w w'') :
    Transform.Redeclares (fun t : Schema => t.encode definitions n) (fun t => t.write definitions) props := by
  intro e he last hLast v w w' hKeys hOverridden hFirst
  rcases h e he last hLast with rfl | hRewritable
  · exact (hEach e he).ends trivial hKeys hFirst
  · obtain ⟨w'', hAgain⟩ := hRewritable v w w' hKeys ⟨n, hOverridden⟩ ⟨n, hFirst⟩
    exact ⟨w'', write_eq_some_iff.mpr hAgain⟩

/-- All that is not a link repeats as its parts do. -/
theorem repeats_of_links
    (hLinks : ∀ link, (lazy link).Throughout definitions (fun t => t.Unmerged ∧ t.Rewritable definitions) →
      Repeats True ((lazy link).encode definitions n) ((lazy link).write definitions)) (s : Schema)
    (hs : s.Throughout definitions fun t => t.Unmerged ∧ t.Rewritable definitions) :
    Repeats True (s.encode definitions n) (s.write definitions) := by
  induction s using parts_induction with
  | step s ih =>
    have hParts : ∀ t ∈ s.parts, Repeats True (t.encode definitions n) (t.write definitions) :=
      fun t ht => ih t ht (hs.part ht)
    obtain ⟨hUnmerged, hRewritable⟩ := hs.here
    cases s with
    | kind _ | literal _ | union _ => exact .id
    | nullable or =>
      rw [encode_nullable]
      exact (hParts or List.mem_cons_self).nullable
    | object props =>
      rw [encode_object, write, unfold, unfoldNamed_eq]
      have hEach : ∀ e ∈ props, Repeats True (e.2.encode definitions n) (e.2.write definitions) :=
        fun e he => hParts e.2 (List.mem_map_of_mem he)
      exact .object hEach fun _ => redeclares_of_rewritable hEach hRewritable
    | partialObject props =>
      rw [encode_partialObject, write, unfold, unfoldNamed_eq]
      have hEach : ∀ e ∈ props, Repeats True (e.2.encode definitions n) (e.2.write definitions) :=
        fun e he => hParts e.2 (List.mem_map_of_mem he)
      exact .partialObject hEach fun _ => redeclares_of_rewritable hEach hRewritable
    | record of =>
      rw [encode_record]
      exact (hParts of List.mem_cons_self).record
    | array of =>
      rw [encode_array]
      exact (hParts of List.mem_cons_self).array
    | tuple slots =>
      rw [encode_tuple, write, unfold, unfoldEach_eq]
      exact .tuple hParts
    | inter left right => cases hUnmerged
    | tagged tag members =>
      rw [encode_tagged, write, unfold, unfoldNamed_eq]
      exact .tagged fun e he => hParts e.2 (List.mem_map_of_mem he)
    | refine of holds expected => exact hParts of List.mem_cons_self
    | lazy link => exact hLinks link hs
    | make key body => exact hParts body List.mem_cons_self

/-- The induction is on the bound of the first run; the second one may follow its links as far as it takes. -/
theorem repeats (n : Nat) (s : Schema) (hs : s.Throughout definitions fun t => t.Unmerged ∧ t.Rewritable definitions) :
    Repeats True (s.encode definitions n) (s.write definitions) := by
  induction n generalizing s with
  | zero => exact repeats_of_links (fun _ _ => .never _) s hs
  | succ n ih =>
    refine repeats_of_links (fun link hLink => ?_) s hs
    cases hFound : definitions.get? link.target with
    | none =>
      have hNone : (lazy link).encode definitions (n + 1) = fun _ => none := by
        funext v
        rw [encode_lazy_succ, hFound]
        rfl
      rw [hNone]
      exact .never _
    | some t =>
      have hSome : (lazy link).encode definitions (n + 1) = t.encode definitions n := by
        funext v
        rw [encode_lazy_succ, hFound]
        rfl
      rw [hSome, write_lazy link hFound]
      exact ih t (hLink.link hFound)

end Schema

end JsonShapes
