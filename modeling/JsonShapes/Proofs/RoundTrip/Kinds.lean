import JsonShapes.Proofs.Finite
import JsonShapes.Proofs.Limits

/-! # Kinds of values that a schema may accept

Most ways to make a schema reject a value for its kind alone. The kinds that are left can be computed without
running anything. Behind a link that is not followed far enough there may be values of any kind, and a union or
an intersection may accept what one of its parts does.
-/
namespace JsonShapes
set_option autoImplicit false

def Kind.all : List Kind := [.null, .boolean, .number, .string, .array, .object]

theorem Kind.mem_all (k : Kind) : k ∈ all := by cases k <;> decide

/-- The kinds of the values that are not rejected at once. -/
def Interpretation.kinds {σ : Type} (behind : σ → List Kind) : Interpretation σ (List Kind) where
  kind k := [k]
  literal values := values.map Value.kind
  nullable or := .null :: or
  object _ := [.object]
  partialObject _ := [.object]
  record _ := [.object]
  array _ := [.array]
  tuple _ := [.array]
  union := List.flatten
  inter left right := left ++ right
  tagged _ _ := [.object]
  refine of _ _ := of
  lazy _ := behind

/-- The kinds behind a link, where at most `bound` links are followed in a row. -/
def Definitions.kinds (definitions : Definitions) : Nat → Link → List Kind
  | 0, _ => Kind.all
  | n + 1, link =>
    match definitions.get? link.target with
    | none => Kind.all
    | some s => s.unfold (.kinds (definitions.kinds n))

def Schema.kinds (definitions : Definitions) (bound : Nat) (s : Schema) : List Kind :=
  s.unfold (.kinds (definitions.kinds bound))

namespace Check

/-- Values of other kinds are rejected. -/
def RejectsOutside (kinds : List Kind) (check : Check Option) : Prop :=
  ∀ v, v.kind ∉ kinds → ∃ e, check v = some (.error e)

theorem firstOf_rejects {members : List (Check Option)} {v : Value} (start : Nat)
    (h : ∀ check ∈ members, ∃ e, check v = some (.error e)) : ∃ es, firstOf v start members = some (.error es) := by
  induction members generalizing start with
  | nil => exact ⟨[], rfl⟩
  | cons check rest ih =>
    obtain ⟨⟨e, he⟩, hRest⟩ := List.forall_mem_cons.mp h
    obtain ⟨es, hes⟩ := ih (start + 1) hRest
    refine ⟨.single (.member start e) :: es, ?_⟩
    rw [firstOf, he]
    simp only [Option.bind_eq_bind, Option.bind_some, hes]
    rfl

theorem union_rejects {members : List (Check Option)} {v : Value}
    (h : ∀ check ∈ members, ∃ e, check v = some (.error e)) : ∃ e, union members v = some (.error e) := by
  obtain ⟨es, hes⟩ := firstOf_rejects 0 h
  rw [union, hes]
  cases es with
  | nil => exact ⟨_, rfl⟩
  | cons e es => exact ⟨_, rfl⟩

namespace RejectsOutside
variable {ks ls : List Kind} {check left right : Check Option}

/-- The check accepts values of one kind only. -/
theorem only {k : Kind} (h : ∀ v, v.kind ≠ k → ∃ e, check v = some (.error e)) : RejectsOutside [k] check :=
  fun v hv => h v fun hKind => hv (List.mem_singleton.mpr hKind)

theorem lazy (id : String) (h : RejectsOutside ks check) : RejectsOutside ks (Check.lazy id check) := by
  intro v hv
  obtain ⟨e, he⟩ := h v hv
  rw [Check.lazy, he]
  exact ⟨_, rfl⟩

theorem nullable (h : RejectsOutside ks check) : RejectsOutside (.null :: ks) (Check.nullable check) := by
  intro v hv
  obtain ⟨hNull, hKinds⟩ := not_or.mp (List.mem_cons.not.mp hv)
  obtain ⟨e, he⟩ := h v hKinds
  cases v with
  | null => exact absurd rfl hNull
  | _ =>
    simp only [Check.nullable, he]
    exact ⟨_, rfl⟩

theorem inter (hLeft : RejectsOutside ks left) (hRight : RejectsOutside ls right) :
    RejectsOutside (ks ++ ls) (Check.inter left right) := by
  intro v hv
  obtain ⟨hv, hv'⟩ := not_or.mp (List.mem_append.not.mp hv)
  obtain ⟨e, he⟩ := hLeft v hv
  obtain ⟨e', he'⟩ := hRight v hv'
  rw [Check.inter, he, he']
  exact ⟨_, rfl⟩

theorem union {kinds : List (List Kind)} {members : List (Check Option)}
    (h : List.Forall₂ RejectsOutside kinds members) : RejectsOutside kinds.flatten (Check.union members) := by
  intro v hv
  apply union_rejects
  intro check hCheck
  obtain ⟨ks, hks, hRejects⟩ := forall₂_mem_right h hCheck
  exact hRejects v fun hMem => hv (List.mem_flatten.mpr ⟨ks, hks, hMem⟩)

theorem andThen (next : Value → Value → Decoded Value) (h : RejectsOutside ks check) :
    RejectsOutside ks (Check.andThen check next) := by
  intro v hv
  obtain ⟨e, he⟩ := h v hv
  rw [Check.andThen, he]
  exact ⟨_, rfl⟩

end RejectsOutside

end Check

theorem Interpretation.kinds_related {σ : Type} (behind : σ → List Kind) (follow : σ → Check Option) :
    Interpretation.Related Check.RejectsOutside (.kinds behind) (.checking follow) where
  kind k := .only fun v hv => by
    simp only [checking, Check.kind, if_neg hv]
    exact ⟨_, rfl⟩
  literal values := by
    intro v hv
    have hOther : values.contains v = false := by
      rw [Bool.eq_false_iff]
      intro hContains
      obtain ⟨u, hu, hSame⟩ := List.contains_iff_exists_mem_beq.mp hContains
      exact hv (Value.beq_kind hSame ▸ List.mem_map_of_mem hu)
    simp only [checking, Check.literal, hOther]
    exact ⟨_, rfl⟩
  nullable := Check.RejectsOutside.nullable
  object _ := .only fun _ hv => ⟨_, Check.object_of_kind _ hv⟩
  partialObject _ := .only fun _ hv => ⟨_, Check.partialObject_of_kind _ hv⟩
  record _ := .only fun _ hv => ⟨_, Check.record_of_kind _ hv⟩
  array _ := .only fun _ hv => ⟨_, Check.array_of_kind _ hv⟩
  tuple _ := .only fun _ hv => ⟨_, Check.tuple_of_kind _ hv⟩
  union := Check.RejectsOutside.union
  inter := Check.RejectsOutside.inter
  tagged _ _ _ _ := .only fun _ hv => ⟨_, Check.tagged_of_kind _ _ hv⟩
  refine _ _ _ _ := Check.RejectsOutside.andThen _

namespace Schema

/-- The induction is on the links in a row. -/
theorem evaluate_rejectsOutside (definitions : Definitions) (bound : Nat) (s : Schema) :
    Check.RejectsOutside (s.kinds definitions bound) (s.evaluate definitions) := by
  induction bound generalizing s with
  | zero =>
    refine unfold_related (Interpretation.kinds_related _ _) s fun link _ v hv => ?_
    exact absurd (Kind.mem_all v.kind) hv
  | succ n ih =>
    refine unfold_related (Interpretation.kinds_related _ _) s fun link _ => ?_
    change Check.RejectsOutside (definitions.kinds (n + 1) link) ((lazy link).evaluate definitions)
    rw [Definitions.kinds]
    cases hFound : definitions.get? link.target with
    | none => exact fun v hv => absurd (Kind.mem_all v.kind) hv
    | some t =>
      rw [evaluate_lazy link hFound]
      exact (ih t).lazy link.id

end Schema

end JsonShapes
