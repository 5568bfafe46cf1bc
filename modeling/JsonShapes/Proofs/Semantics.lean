import JsonShapes.Proofs.Related
import JsonShapes.Schema.Evaluation

/-! # Schemas read as what they do

Building a decoder and running it can be read in one step: a schema becomes a check at once, each
combinator being the operation that the decoder would run. The same holds of guards and encoders. Where
references are renamed while a schema is read, the renaming moves into the way they are followed.
-/
namespace JsonShapes
set_option autoImplicit false

namespace Interpretation
variable {σ τ ρ : Type} {m : Type → Type} [Monad m]

def comap (I : Interpretation τ ρ) (place : σ → τ) : Interpretation σ ρ :=
  { I with lazy := fun id ref => I.lazy id (place ref) }

def checking (follow : σ → Check m) : Interpretation σ (Check m) where
  kind := Check.kind
  literal := Check.literal
  nullable := Check.nullable
  object := Check.object
  partialObject := Check.partialObject
  record := Check.record
  array := Check.array
  tuple := Check.tuple
  union := Check.union
  inter := Check.inter
  tagged := Check.tagged
  refine of holds expected := Check.andThen of fun v w =>
    if holds v then .ok w else Decoded.reject w expected
  lazy id ref := Check.lazy id (follow ref)

def testing (follow : σ → Test m) : Interpretation σ (Test m) where
  kind := Test.kind
  literal := Test.literal
  nullable := Test.nullable
  object := Test.object
  partialObject := Test.partialObject
  record := Test.record
  array := Test.array
  tuple := Test.tuple
  union := Test.union
  inter := Test.inter
  tagged := Test.tagged
  refine of holds _ := Test.refine of holds
  lazy _ := follow

def transforming (follow : σ → Transform m) : Interpretation σ (Transform m) where
  kind _ := Transform.convert fun v => v
  literal _ := Transform.convert fun v => v
  nullable := Transform.nullable
  object := Transform.object
  partialObject := Transform.partialObject
  record := Transform.record
  array := Transform.array
  tuple := Transform.tuple
  union _ := Transform.convert fun v => v
  inter := Transform.inter
  tagged := Transform.tagged
  refine of _ _ := of
  lazy _ := follow

end Interpretation

variable {σ τ : Type} {m : Type → Type} [Monad m]

namespace Decoder
variable {test : τ → Test m} {follow : τ → Check m}

section
variable {α : Type} (f : α → Decoder τ)

theorem runEach_map (as : List α) :
    runEach test follow (as.map f) = as.map fun a => (f a).run test follow := by
  induction as with
  | nil => rfl
  | cons a rest ih => exact congrArg ((f a).run test follow :: ·) ih

theorem runNamed_mapValues (as : Entries α) :
    runNamed test follow (Entries.mapValues f as) = Entries.mapValues (fun a => (f a).run test follow) as := by
  induction as with
  | nil => rfl
  | cons e rest ih => exact congrArg ((e.1, (f e.2).run test follow) :: ·) ih

end

theorem forall_mem_runEach {P : Check m → Prop} {ds : List (Decoder τ)} (h : ∀ d ∈ ds, P (d.run test follow)) :
    ∀ check ∈ runEach test follow ds, P check := by
  induction ds with
  | nil => exact List.forall_mem_nil _
  | cons d rest ih =>
    obtain ⟨hHead, hRest⟩ := List.forall_mem_cons.mp h
    exact List.forall_mem_cons.mpr ⟨hHead, ih hRest⟩

theorem forall_mem_runNamed {P : Check m → Prop} {ds : Entries (Decoder τ)}
    (h : ∀ p ∈ ds, P (p.2.run test follow)) : ∀ p ∈ runNamed test follow ds, P p.2 := by
  induction ds with
  | nil => exact List.forall_mem_nil _
  | cons p rest ih =>
    obtain ⟨hHead, hRest⟩ := List.forall_mem_cons.mp h
    exact List.forall_mem_cons.mpr ⟨hHead, ih hRest⟩

theorem runEach_eq {ds : List (Decoder τ)} {cs : List (Check m)}
    (h : List.Forall₂ (fun d c => d.run test follow = c) ds cs) : runEach test follow ds = cs := by
  induction h with
  | nil => rfl
  | cons hHead _ ih => exact congrArg₂ List.cons hHead ih

theorem runNamed_eq {ds : Entries (Decoder τ)} {cs : Entries (Check m)}
    (h : Entries.Related (fun d c => d.run test follow = c) ds cs) :
    runNamed test follow ds = cs := by
  induction h with
  | nil => rfl
  | cons hHead _ ih => exact congrArg₂ List.cons (Prod.ext hHead.1 hHead.2) ih

theorem decoding_related_checking [LawfulMonad m] (place : σ → τ) :
    (Interpretation.decoding.comap place).Related (fun d c => d.run test follow = c)
      (Interpretation.checking fun ref => follow (place ref)) where
  kind := Check.guarded_kind
  literal _ := rfl
  nullable h := congrArg Check.nullable h
  object h := congrArg Check.object (runNamed_eq h)
  partialObject h := congrArg Check.partialObject (runNamed_eq h)
  record h := congrArg Check.record h
  array h := congrArg Check.array h
  tuple h := congrArg Check.tuple (runEach_eq h)
  union h := congrArg Check.union (runEach_eq h)
  inter h h' := congrArg₂ Check.inter h h'
  tagged tag _ _ h := congrArg (Check.tagged tag) (runNamed_eq h)
  refine _ _ _ _ h := congrArg (Check.andThen · _) h

theorem run_unfold [LawfulMonad m] (s : Schema) (place : Link → τ) :
    (s.unfold (Interpretation.decoding.comap place)).run test follow =
      s.unfold (Interpretation.checking fun link => follow (place link)) :=
  s.unfold_related (decoding_related_checking place) fun _ _ => rfl

end Decoder

namespace Guard
variable {follow : τ → Test m}

theorem runEach_eq {gs : List (Guard τ)} {ts : List (Test m)}
    (h : List.Forall₂ (fun g t => g.run follow = t) gs ts) : runEach follow gs = ts := by
  induction h with
  | nil => rfl
  | cons hHead _ ih => exact congrArg₂ List.cons hHead ih

theorem runNamed_eq {gs : Entries (Guard τ)} {ts : Entries (Test m)}
    (h : Entries.Related (fun g t => g.run follow = t) gs ts) : runNamed follow gs = ts := by
  induction h with
  | nil => rfl
  | cons hHead _ ih => exact congrArg₂ List.cons (Prod.ext hHead.1 hHead.2) ih

theorem guarding_related_testing (place : σ → τ) :
    (Interpretation.guarding.comap place).Related (fun g t => g.run follow = t)
      (Interpretation.testing fun ref => follow (place ref)) where
  kind _ := rfl
  literal _ := rfl
  nullable h := congrArg Test.nullable h
  object h := congrArg Test.object (runNamed_eq h)
  partialObject h := congrArg Test.partialObject (runNamed_eq h)
  record h := congrArg Test.record h
  array h := congrArg Test.array h
  tuple h := congrArg Test.tuple (runEach_eq h)
  union h := congrArg Test.union (runEach_eq h)
  inter h h' := congrArg₂ Test.inter h h'
  tagged tag _ _ h := congrArg (Test.tagged tag) (runNamed_eq h)
  refine holds _ _ _ h := congrArg (Test.refine · holds) h

theorem run_unfold (s : Schema) (place : Link → τ) :
    (s.unfold (Interpretation.guarding.comap place)).run follow =
      s.unfold (Interpretation.testing fun link => follow (place link)) :=
  s.unfold_related (guarding_related_testing place) fun _ _ => rfl

end Guard

namespace Encoder
variable {follow : τ → Transform m}

theorem runEach_eq_map (es : List (Encoder τ)) : runEach follow es = es.map (run follow) := by
  induction es with
  | nil => rfl
  | cons e rest ih => exact congrArg (e.run follow :: ·) ih

theorem runNamed_eq_mapValues (es : Entries (Encoder τ)) : runNamed follow es = Entries.mapValues (run follow) es := by
  induction es with
  | nil => rfl
  | cons e rest ih => exact congrArg ((e.1, e.2.run follow) :: ·) ih

section
variable {α : Type} (f : α → Encoder τ)

theorem runEach_map (as : List α) : runEach follow (as.map f) = as.map fun a => (f a).run follow := by
  rw [runEach_eq_map, List.map_map]
  rfl

theorem runNamed_mapValues (as : Entries α) :
    runNamed follow (Entries.mapValues f as) = Entries.mapValues (fun a => (f a).run follow) as := by
  rw [runNamed_eq_mapValues, Entries.mapValues, Entries.mapValues, List.map_map]
  rfl

end

theorem runEach_eq {es : List (Encoder τ)} {ts : List (Transform m)}
    (h : List.Forall₂ (fun e t => e.run follow = t) es ts) : runEach follow es = ts := by
  induction h with
  | nil => rfl
  | cons hHead _ ih => exact congrArg₂ List.cons hHead ih

theorem runNamed_eq {es : Entries (Encoder τ)} {ts : Entries (Transform m)}
    (h : Entries.Related (fun e t => e.run follow = t) es ts) : runNamed follow es = ts := by
  induction h with
  | nil => rfl
  | cons hHead _ ih => exact congrArg₂ List.cons (Prod.ext hHead.1 hHead.2) ih

theorem encoding_related_transforming (place : σ → τ) :
    (Interpretation.encoding.comap place).Related (fun e t => e.run follow = t)
      (Interpretation.transforming fun ref => follow (place ref)) where
  kind _ := rfl
  literal _ := rfl
  nullable h := congrArg Transform.nullable h
  object h := congrArg Transform.object (runNamed_eq h)
  partialObject h := congrArg Transform.partialObject (runNamed_eq h)
  record h := congrArg Transform.record h
  array h := congrArg Transform.array h
  tuple h := congrArg Transform.tuple (runEach_eq h)
  union _ := rfl
  inter h h' := congrArg₂ Transform.inter h h'
  tagged tag _ _ h := congrArg (Transform.tagged tag) (runNamed_eq h)
  refine _ _ _ _ h := h

theorem run_unfold (s : Schema) (place : Link → τ) :
    (s.unfold (Interpretation.encoding.comap place)).run follow =
      s.unfold (Interpretation.transforming fun link => follow (place link)) :=
  s.unfold_related (encoding_related_transforming place) fun _ _ => rfl

end Encoder

/-! ## Direct evaluation -/

/-- Reads the schema that a link names and uses it on a value, following its links in the same way. -/
def Definitions.follow {out : Type} (definitions : Definitions)
    (read : (Link → Value → Option out) → Interpretation Link (Value → Option out)) :
    Nat → Link → Value → Option out
  | 0, _, _ => none
  | n + 1, link, v => do (← definitions.get? link.target).unfold (read (definitions.follow read n)) v

theorem Definitions.eq_follow {out : Type} {definitions : Definitions}
    {read : (Link → Value → Option out) → Interpretation Link (Value → Option out)}
    {follow : Nat → Link → Value → Option out} (hZero : ∀ link v, follow 0 link v = none)
    (hSucc : ∀ n link v, follow (n + 1) link v =
      (definitions.get? link.target).bind fun s => s.unfold (read (follow n)) v)
    (bound : Nat) : follow bound = definitions.follow read bound := by
  induction bound with
  | zero =>
    funext link v
    exact hZero link v
  | succ n ih =>
    funext link v
    rw [hSucc, ih]
    rfl

namespace Schema
variable (definitions : Definitions) (bound : Nat)

theorem followCheck_eq : (Definitions.resolver definitions).followCheck bound =
    definitions.follow Interpretation.checking bound := by
  apply Definitions.eq_follow (fun _ _ => rfl)
  intro n link v
  change Option.bind (Option.map (Schema.unfold .decoding) (definitions.get? link.target)) _ = _
  cases definitions.get? link.target with
  | none => rfl
  | some s => exact congrFun (Decoder.run_unfold s fun link => link) v

theorem followTest_eq : (Definitions.resolver definitions).followTest bound =
    definitions.follow Interpretation.testing bound := by
  apply Definitions.eq_follow (fun _ _ => rfl)
  intro n link v
  change Option.bind (Option.map (Schema.unfold .guarding) (definitions.get? link.target)) _ = _
  cases definitions.get? link.target with
  | none => rfl
  | some s => exact congrFun (Guard.run_unfold s fun link => link) v

theorem followTransform_eq : (Definitions.resolver definitions).followTransform bound =
    definitions.follow Interpretation.transforming bound := by
  apply Definitions.eq_follow (fun _ _ => rfl)
  intro n link v
  change Option.bind (Option.map (Schema.unfold .encoding) (definitions.get? link.target)) _ = _
  cases definitions.get? link.target with
  | none => rfl
  | some s => exact congrFun (Encoder.run_unfold s fun link => link) v

theorem decode_eq (s : Schema) :
    s.decode definitions bound = s.unfold (.checking (definitions.follow .checking bound)) := by
  rw [← followCheck_eq]
  exact Decoder.run_unfold s fun link => link

theorem accepts_eq (s : Schema) :
    s.accepts definitions bound = s.unfold (.testing (definitions.follow .testing bound)) := by
  rw [← followTest_eq]
  exact Guard.run_unfold s fun link => link

theorem encode_eq (s : Schema) :
    s.encode definitions bound =
      s.unfold (.transforming (definitions.follow .transforming bound)) := by
  rw [← followTransform_eq]
  exact Encoder.run_unfold s fun link => link

/-! One equation for each way to make a schema. -/

variable {definitions bound} {ρ : Type}

theorem unfoldEach_eq (I : Interpretation Link ρ) (ss : List Schema) :
    unfoldEach I ss = ss.map (unfold I) := by
  induction ss with
  | nil => rfl
  | cons s rest ih => rw [unfoldEach, ih, List.map_cons]

theorem unfoldNamed_eq (I : Interpretation Link ρ) (ss : List (String × Schema)) :
    unfoldNamed I ss = ss.map fun e => (e.1, e.2.unfold I) := by
  induction ss with
  | nil => rfl
  | cons e rest ih => rw [unfoldNamed, ih, List.map_cons]

theorem decode_kind (k : Kind) : (kind k).decode definitions bound = Check.kind k := by
  rw [decode_eq]
  rfl

theorem decode_literal (values : List Value) :
    (literal values).decode definitions bound = Check.literal values := rfl

theorem decode_nullable (s : Schema) :
    (nullable s).decode definitions bound = Check.nullable (s.decode definitions bound) := by
  rw [decode_eq, decode_eq]
  rfl

theorem decode_object (props : List (String × Schema)) : (object props).decode definitions bound =
    Check.object (props.map fun e => (e.1, e.2.decode definitions bound)) := by
  simp only [decode_eq]
  exact congrArg Check.object (unfoldNamed_eq _ props)

theorem decode_partialObject (props : List (String × Schema)) :
    (partialObject props).decode definitions bound =
      Check.partialObject (props.map fun e => (e.1, e.2.decode definitions bound)) := by
  simp only [decode_eq]
  exact congrArg Check.partialObject (unfoldNamed_eq _ props)

theorem decode_record (s : Schema) :
    (record s).decode definitions bound = Check.record (s.decode definitions bound) := by
  rw [decode_eq, decode_eq]
  rfl

theorem decode_array (s : Schema) :
    (array s).decode definitions bound = Check.array (s.decode definitions bound) := by
  rw [decode_eq, decode_eq]
  rfl

theorem decode_tuple (slots : List Schema) : (tuple slots).decode definitions bound =
    Check.tuple (slots.map fun s => s.decode definitions bound) := by
  simp only [decode_eq]
  exact congrArg Check.tuple (unfoldEach_eq _ slots)

theorem decode_union (members : List Schema) : (union members).decode definitions bound =
    Check.union (members.map fun s => s.decode definitions bound) := by
  simp only [decode_eq]
  exact congrArg Check.union (unfoldEach_eq _ members)

theorem decode_inter (left right : Schema) : (inter left right).decode definitions bound =
    Check.inter (left.decode definitions bound) (right.decode definitions bound) := by
  rw [decode_eq, decode_eq, decode_eq]
  rfl

theorem decode_tagged (tag : String) (members : List (String × Schema)) :
    (tagged tag members).decode definitions bound =
      Check.tagged tag (members.map fun e => (e.1, e.2.decode definitions bound)) := by
  simp only [decode_eq]
  exact congrArg (Check.tagged tag) (unfoldNamed_eq _ members)

theorem decode_refine (s : Schema) (holds : Value → Bool) (expected : String) :
    (refine s holds expected).decode definitions bound =
      Check.andThen (s.decode definitions bound) fun v w =>
        if holds v then .ok w else Decoded.reject w expected := by
  rw [decode_eq, decode_eq]
  rfl

theorem decode_make (key : Option SchemaKey) (s : Schema) :
    (make key s).decode definitions bound = s.decode definitions bound := rfl

theorem decode_lazy_zero (link : Link) (v : Value) : (lazy link).decode definitions 0 v = none := rfl

theorem decode_lazy_succ (link : Link) (v : Value) : (lazy link).decode definitions (bound + 1) v =
    (definitions.get? link.target).bind fun s => Check.lazy link.id (s.decode definitions bound) v := by
  simp only [decode_eq]
  exact Option.bind_assoc _ _ _

theorem encode_kind (k : Kind) :
    (kind k).encode definitions bound = Transform.convert fun v => v := rfl

theorem encode_literal (values : List Value) :
    (literal values).encode definitions bound = Transform.convert fun v => v := rfl

theorem encode_nullable (s : Schema) :
    (nullable s).encode definitions bound = Transform.nullable (s.encode definitions bound) := by
  rw [encode_eq, encode_eq]
  rfl

theorem encode_object (props : List (String × Schema)) : (object props).encode definitions bound =
    Transform.object (props.map fun e => (e.1, e.2.encode definitions bound)) := by
  simp only [encode_eq]
  exact congrArg Transform.object (unfoldNamed_eq _ props)

theorem encode_partialObject (props : List (String × Schema)) :
    (partialObject props).encode definitions bound =
      Transform.partialObject (props.map fun e => (e.1, e.2.encode definitions bound)) := by
  simp only [encode_eq]
  exact congrArg Transform.partialObject (unfoldNamed_eq _ props)

theorem encode_record (s : Schema) :
    (record s).encode definitions bound = Transform.record (s.encode definitions bound) := by
  rw [encode_eq, encode_eq]
  rfl

theorem encode_array (s : Schema) :
    (array s).encode definitions bound = Transform.array (s.encode definitions bound) := by
  rw [encode_eq, encode_eq]
  rfl

theorem encode_tuple (slots : List Schema) : (tuple slots).encode definitions bound =
    Transform.tuple (slots.map fun s => s.encode definitions bound) := by
  simp only [encode_eq]
  exact congrArg Transform.tuple (unfoldEach_eq _ slots)

theorem encode_inter (left right : Schema) : (inter left right).encode definitions bound =
    Transform.inter (left.encode definitions bound) (right.encode definitions bound) := by
  rw [encode_eq, encode_eq, encode_eq]
  rfl

theorem encode_tagged (tag : String) (members : List (String × Schema)) :
    (tagged tag members).encode definitions bound =
      Transform.tagged tag (members.map fun e => (e.1, e.2.encode definitions bound)) := by
  simp only [encode_eq]
  exact congrArg (Transform.tagged tag) (unfoldNamed_eq _ members)

theorem encode_refine (s : Schema) (holds : Value → Bool) (expected : String) :
    (refine s holds expected).encode definitions bound = s.encode definitions bound := rfl

theorem encode_make (key : Option SchemaKey) (s : Schema) :
    (make key s).encode definitions bound = s.encode definitions bound := rfl

theorem encode_lazy_zero (link : Link) (v : Value) : (lazy link).encode definitions 0 v = none := rfl

theorem encode_lazy_succ (link : Link) (v : Value) : (lazy link).encode definitions (bound + 1) v =
    (definitions.get? link.target).bind fun s => s.encode definitions bound v := by
  simp only [encode_eq]
  rfl

end Schema

end JsonShapes
