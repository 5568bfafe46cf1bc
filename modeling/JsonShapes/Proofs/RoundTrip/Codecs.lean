import JsonShapes.Proofs.RoundTrip.Retractions
import JsonShapes.Proofs.Shelving.Settled

/-! # Codecs that keep the law

A codec is lawful when it is built in the ways that are listed here. Whatever it has decoded it encodes to a
value that it decodes to the same again, however its definitions refer to each other.
-/
namespace JsonShapes
set_option autoImplicit false

namespace Codec
variable {ρ σ : Type}

/-- Properties, declared at once or in parts that are put together. -/
inductive Fields (ρ : Type) where
  | object (props : List (String × Codec ρ))
  | partialObject (props : List (String × Codec ρ))
  | inter (left right : Fields ρ)

namespace Fields

def props : Fields ρ → List (String × Codec ρ)
  | object props | partialObject props => props
  | inter left right => left.props ++ right.props

def codec : Fields ρ → Codec ρ
  | object props => .object props
  | partialObject props => .partialObject props
  | inter left right => .inter left.codec right.codec

end Fields

/-- No property is declared twice, each member of a sum declares its own name as a literal under the tag, and
references are to definitions that both halves share. -/
inductive Lawful (Shared : ρ → Prop) : Codec ρ → Prop
  | string : Lawful Shared string
  | number : Lawful Shared number
  | boolean : Lawful Shared boolean
  | anyArray : Lawful Shared anyArray
  | anyObject : Lawful Shared anyObject
  | literal (values : List Value) : Lawful Shared (literal values)
  | nullable {or : Codec ρ} : Lawful Shared or → Lawful Shared (nullable or)
  | record {of : Codec ρ} : Lawful Shared of → Lawful Shared (record of)
  | array {of : Codec ρ} : Lawful Shared of → Lawful Shared (array of)
  | tuple {slots : List (Codec ρ)} : (∀ c ∈ slots, Lawful Shared c) → Lawful Shared (tuple slots)
  | fields {f : Fields ρ} : (Entries.keys f.props).Nodup → (∀ p ∈ f.props, Lawful Shared p.2) →
    Lawful Shared f.codec
  | tagged {tag : String} {members : List (String × List (String × Codec ρ))} :
    (∀ e ∈ members, (Entries.keys e.2).Nodup ∧ (tag, Codec.literal [.str e.1]) ∈ e.2) →
    (∀ e ∈ members, ∀ p ∈ e.2, Lawful Shared p.2) →
    Lawful Shared (tagged tag (members.map fun e => (e.1, object e.2)))
  | refine {c : Codec ρ} (holds : Value → Bool) (expected : String) : Lawful Shared c →
    Lawful Shared (c.refine holds expected)
  | mapFailures {c : Codec ρ} (f : Value → Failures String → Failures String) : Lawful Shared c →
    Lawful Shared (c.mapFailures f)
  | lazy {id : String} {ref : ρ} : Shared ref → Lawful Shared (lazy id ref)

theorem Lawful.withMessage {Shared : ρ → Prop} {c : Codec ρ} (h : c.Lawful Shared)
    (message : Value → Failures String → String) : (c.withMessage message).Lawful Shared := .mapFailures _ h

/-! ## Running -/

section
variable (test : ρ → Test Option) (follow : ρ → Check Option) (followTo : ρ → Transform Option)

/-- What the decoding half does. -/
def check (c : Codec ρ) : Check Option := c.decoder.run test follow

/-- What the encoding half does. -/
def transform (c : Codec ρ) : Transform Option := c.encoder.run followTo

theorem keys_map {β : Type} (named : List (String × Codec ρ)) (f : Codec ρ → β) :
    Entries.keys (named.map fun p => (p.1, f p.2)) = Entries.keys named := by
  rw [Entries.keys, List.map_map]
  rfl

theorem check_object (props : List (String × Codec ρ)) : (object props).check test follow =
    Check.object (props.map fun p => (p.1, check test follow p.2)) :=
  congrArg Check.object (Decoder.runNamed_mapValues (·.decoder) props)

theorem transform_object (props : List (String × Codec ρ)) : (object props).transform followTo =
    Transform.object (props.map fun p => (p.1, transform followTo p.2)) :=
  congrArg Transform.object (Encoder.runNamed_mapValues (·.encoder) props)

theorem check_partialObject (props : List (String × Codec ρ)) : (partialObject props).check test follow =
    Check.partialObject (props.map fun p => (p.1, check test follow p.2)) :=
  congrArg Check.partialObject (Decoder.runNamed_mapValues (·.decoder) props)

theorem transform_partialObject (props : List (String × Codec ρ)) : (partialObject props).transform followTo =
    Transform.partialObject (props.map fun p => (p.1, transform followTo p.2)) :=
  congrArg Transform.partialObject (Encoder.runNamed_mapValues (·.encoder) props)

theorem check_tuple (slots : List (Codec ρ)) :
    (tuple slots).check test follow = Check.tuple (slots.map (check test follow)) :=
  congrArg Check.tuple (Decoder.runEach_map (·.decoder) slots)

theorem transform_tuple (slots : List (Codec ρ)) :
    (tuple slots).transform followTo = Transform.tuple (slots.map (transform followTo)) :=
  congrArg Transform.tuple (Encoder.runEach_map (·.encoder) slots)

theorem check_tagged (tag : String) (members : List (String × Codec ρ)) :
    (tagged tag members).check test follow =
      Check.tagged tag (members.map fun p => (p.1, check test follow p.2)) :=
  congrArg (Check.tagged tag) (Decoder.runNamed_mapValues (·.decoder) members)

theorem transform_tagged (tag : String) (members : List (String × Codec ρ)) :
    (tagged tag members).transform followTo =
      Transform.tagged tag (members.map fun p => (p.1, transform followTo p.2)) :=
  congrArg (Transform.tagged tag) (Encoder.runNamed_mapValues (·.encoder) members)

theorem Fields.check_confined (f : Fields ρ) :
    (f.codec.check test follow).Confined (· ∈ Entries.keys f.props) := by
  induction f with
  | object props =>
    rw [codec, check_object]
    exact (Check.Confined.object _).mono fun k hk => keys_map props (check test follow) ▸ hk
  | partialObject props =>
    rw [codec, check_partialObject]
    exact (Check.Confined.partialObject _).mono fun k hk => keys_map props (check test follow) ▸ hk
  | inter left right ihLeft ihRight =>
    refine (ihLeft.inter ihRight).mono fun k hk => ?_
    rw [props, Entries.keys, List.map_append]
    exact List.mem_append.mpr hk

theorem Fields.transform_confined (f : Fields ρ) :
    (f.codec.transform followTo).Confined (· ∈ Entries.keys f.props) := by
  induction f with
  | object props =>
    rw [codec, transform_object]
    exact (Transform.Confined.object _).mono fun k hk => keys_map props (transform followTo) ▸ hk
  | partialObject props =>
    rw [codec, transform_partialObject]
    exact (Transform.Confined.partialObject _).mono fun k hk => keys_map props (transform followTo) ▸ hk
  | inter left right ihLeft ihRight =>
    refine (ihLeft.inter ihRight).mono fun k hk => ?_
    rw [props, Entries.keys, List.map_append]
    exact List.mem_append.mpr hk

variable {test follow followTo}

theorem Fields.retracts (f : Fields ρ) (hNames : (Entries.keys f.props).Nodup)
    (h : ∀ p ∈ f.props, Retracts (p.2.check test follow) (p.2.transform followTo)) :
    Retracts (f.codec.check test follow) (f.codec.transform followTo) := by
  induction f with
  | object props =>
    rw [codec, check_object, transform_object]
    exact .object (Entries.related_map h) ((keys_map props _).symm ▸ hNames)
  | partialObject props =>
    rw [codec, check_partialObject, transform_partialObject]
    exact .partialObject (Entries.related_map h) ((keys_map props _).symm ▸ hNames)
  | inter left right ihLeft ihRight =>
    rw [props, Entries.keys, List.map_append] at hNames
    obtain ⟨hLeft, hRight, hApart⟩ := List.nodup_append.mp hNames
    refine .inter (ihLeft hLeft fun p hp => ?_) (ihRight hRight fun p hp => ?_) (left.check_confined test follow)
      (left.transform_confined followTo) (right.check_confined test follow) (right.transform_confined followTo)
      fun k hk hk' => hApart k hk k hk' rfl
    · exact h p (List.mem_append_left _ hp)
    · exact h p (List.mem_append_right _ hp)

theorem tuple_retracts {slots : List (Codec ρ)}
    (h : ∀ c ∈ slots, Retracts (c.check test follow) (c.transform followTo)) :
    Retracts ((tuple slots).check test follow) ((tuple slots).transform followTo) := by
  rw [check_tuple, transform_tuple]
  exact .tuple (forall₂_map h)

theorem tagged_retracts {tag : String} {members : List (String × List (String × Codec ρ))}
    (hMembers : ∀ e ∈ members, (Entries.keys e.2).Nodup ∧ (tag, literal [.str e.1]) ∈ e.2)
    (h : ∀ e ∈ members, ∀ p ∈ e.2, Retracts (p.2.check test follow) (p.2.transform followTo)) :
    Retracts ((tagged tag (members.map fun e => (e.1, object e.2))).check test follow)
      ((tagged tag (members.map fun e => (e.1, object e.2))).transform followTo) := by
  rw [check_tagged, transform_tagged]
  refine .tagged (Entries.related_map ?_) fun name c hFound => ?_
  · intro _ hMem
    obtain ⟨e, he, rfl⟩ := List.mem_map.mp hMem
    exact Fields.retracts (.object e.2) (hMembers e he).1 (h e he)
  · obtain ⟨_, hMem, hEntry⟩ := List.mem_map.mp (Entries.mem_of_get?_ofList hFound)
    cases hEntry
    obtain ⟨e, he, rfl⟩ := List.mem_map.mp hMem
    rw [check_object]
    intro v w hRun
    refine Check.object_literal ((keys_map e.2 _).symm ▸ (hMembers e he).1) ?_ hRun
    exact List.mem_map_of_mem (hMembers e he).2

/-- One case for each way to build a codec. -/
theorem Lawful.retracts {Shared : ρ → Prop} {c : Codec ρ} (hc : c.Lawful Shared)
    (hShared : ∀ ref, Shared ref → Retracts (follow ref) (followTo ref)) :
    Retracts (c.check test follow) (c.transform followTo) := by
  induction hc with
  | string =>
    refine .converted fun {v w} h => ?_
    obtain ⟨hKind, rfl⟩ := Check.kind_eq_ok_iff.mp h
    cases w <;> first | exact ⟨rfl, rfl⟩ | cases hKind
  | number => exact .float
  | boolean =>
    refine .converted fun {v w} h => ?_
    obtain ⟨hKind, rfl⟩ := Check.kind_eq_ok_iff.mp h
    cases w <;> first | exact ⟨rfl, rfl⟩ | cases hKind
  | anyArray =>
    refine .converted fun {v w} h => ?_
    obtain ⟨hKind, rfl⟩ := Check.kind_eq_ok_iff.mp h
    cases w <;> first | exact ⟨rfl, rfl⟩ | cases hKind
  | anyObject =>
    refine .converted fun {v w} h => ?_
    obtain ⟨hKind, rfl⟩ := Check.kind_eq_ok_iff.mp h
    cases w <;> first | exact ⟨rfl, rfl⟩ | cases hKind
  | literal values => exact .converted fun h => ⟨(Check.literal_eq_ok_iff.mp h).2, rfl⟩
  | nullable _ ih => exact ih.nullable
  | record _ ih => exact ih.record
  | array _ ih => exact ih.array
  | tuple _ ih => exact tuple_retracts ih
  | @fields f hNames _ ih => exact f.retracts hNames ih
  | tagged hMembers _ ih => exact tagged_retracts hMembers ih
  | refine holds expected _ ih => exact ih.refine holds expected
  | mapFailures f _ ih => exact ih.mapFailures f
  | lazy hRef => exact .lazy _ (hShared _ hRef)

end

end Codec

end JsonShapes
