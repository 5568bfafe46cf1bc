import JsonShapes.Proofs.Agreement
import JsonShapes.Proofs.Terms

/-! # Shapes for decoders and guards

A shape can be built twice, with plain decoders and with guards. Plain decoders rewrite what they read: numbers
become floats, and what is declared comes in the order of its declaration. Guards see the input throughout, so
of the predicates that refine a shape one is asked about what has been decoded and the other about the input.
Where a shape is recursive both refer to a place in the program, and each place has one thunk.
-/
namespace JsonShapes
set_option autoImplicit false

/-- Where a recursive shape is referred to. -/
structure CallSite where
  id : String
  site : Nat

inductive Shape where
  | any
  | kind (k : Kind)
  | number
  | literal (values : List Value)
  | pattern (isMatch : String → Bool) (written : String)
  | refine (of : Shape) (onDecoded onInput : Value → Bool) (expected : String)
  | nullable (or : Shape)
  | object (props : List (String × Shape))
  | partialObject (props : List (String × Shape))
  | record (of : Shape)
  | array (of : Shape)
  | tuple (slots : List Shape)
  | union (members : List Shape)
  | inter (left right : Shape)
  | tagged (tag : String) (members : List (String × Shape))
  | alt (of that : Shape)
  | lazy (callSite : CallSite)

namespace Shape
variable {ρ σ : Type}

/-- Whether the value is a string that matches. -/
def matching (isMatch : String → Bool) (v : Value) : Bool := (v.string?.map isMatch).getD false

mutual

def decoder (ref : CallSite → ρ) : Shape → Decoder ρ
  | any => .any
  | kind k => .kind k
  | number => .float
  | literal values => .literal values
  | pattern isMatch written =>
    Decoder.refine (.kind .string) (matching isMatch) ("string matching /" ++ written ++ "/")
  | refine of onDecoded _ expected => (of.decoder ref).refine onDecoded expected
  | nullable or => .nullable (or.decoder ref)
  | object props => .object (decoderNamed ref props)
  | partialObject props => .partialObject (decoderNamed ref props)
  | record of => .record (of.decoder ref)
  | array of => .array (of.decoder ref)
  | tuple slots => .tuple (decoderEach ref slots)
  | union members => .union (decoderEach ref members)
  | inter left right => .inter (left.decoder ref) (right.decoder ref)
  | tagged tag members => .tagged tag (decoderNamed ref members)
  | alt of that => .alt (of.decoder ref) (that.decoder ref)
  | lazy callSite => .lazy callSite.id (ref callSite)

def decoderEach (ref : CallSite → ρ) : List Shape → List (Decoder ρ)
  | [] => []
  | s :: rest => s.decoder ref :: decoderEach ref rest

def decoderNamed (ref : CallSite → ρ) : List (String × Shape) → List (String × Decoder ρ)
  | [] => []
  | (name, s) :: rest => (name, s.decoder ref) :: decoderNamed ref rest

end

mutual

def guard (ref : CallSite → ρ) : Shape → Guard ρ
  | any => .any
  | kind k => .kind k
  | number => .kind .number
  | literal values => .literal values
  | pattern isMatch _ => .refine (.kind .string) (matching isMatch)
  | refine of _ onInput _ => .refine (of.guard ref) onInput
  | nullable or => .nullable (or.guard ref)
  | object props => .object (guardNamed ref props)
  | partialObject props => .partialObject (guardNamed ref props)
  | record of => .record (of.guard ref)
  | array of => .array (of.guard ref)
  | tuple slots => .tuple (guardEach ref slots)
  | union members => .union (guardEach ref members)
  | inter left right => .inter (left.guard ref) (right.guard ref)
  | tagged tag members => .tagged tag (guardNamed ref members)
  | alt of that => (of.guard ref).alt (that.guard ref)
  | lazy callSite => .lazy (ref callSite)

def guardEach (ref : CallSite → ρ) : List Shape → List (Guard ρ)
  | [] => []
  | s :: rest => s.guard ref :: guardEach ref rest

def guardNamed (ref : CallSite → ρ) : List (String × Shape) → List (String × Guard ρ)
  | [] => []
  | (name, s) :: rest => (name, s.guard ref) :: guardNamed ref rest

end

theorem decoder_pattern (ref : CallSite → ρ) (p : Pattern) (written : String) :
    (pattern p.isMatch written).decoder ref = Decoder.pattern p written := by
  unfold decoder
  rfl

theorem guard_pattern (ref : CallSite → ρ) (p : Pattern) (written : String) :
    (pattern p.isMatch written).guard ref = Guard.pattern p := by
  unfold guard
  rfl

/-! ## Replacing references -/

section
variable {m : Type → Type} [Monad m] (M : Lockstep m Id)

/-- Two computations one after the other, beside what they give. -/
theorem both_rel {α β γ : Type} {x : m α} {y : m β} {a : α} {b : β} (hx : M.Rel x (Pure.pure a : Id α))
    (hy : M.Rel y (Pure.pure b : Id β)) (F : α → β → γ) :
    M.Rel (x >>= fun a => y >>= fun b => Pure.pure (F a b)) (Pure.pure (F a b) : Id γ) :=
  M.bind (g := fun a => Pure.pure (F a b)) hx fun _ => M.bind (g := fun b => Pure.pure (F _ b)) hy fun _ =>
    M.pure _

variable {f : CallSite → ρ} {g : ρ → m σ} {h : CallSite → σ}

mutual

/-- What is put in the place of the references is what the shape is built with at once. -/
theorem mapRefs_decoder (hRef : ∀ callSite, M.Rel (g (f callSite)) (h callSite)) (s : Shape) :
    M.Rel ((s.decoder f).mapRefs g) (s.decoder h) := by
  cases s with
  | any | kind _ | number | literal _ =>
    unfold decoder
    exact M.pure _
  | pattern _ _ =>
    unfold decoder
    exact M.bind (M.pure _) fun _ => M.pure _
  | refine of _ _ _ | nullable of | record of | array of =>
    unfold decoder
    exact M.bind (mapRefs_decoder hRef of) fun _ => M.pure _
  | object props | partialObject props | tagged _ props =>
    unfold decoder
    exact M.bind (mapNamed_decoder hRef props) fun _ => M.pure _
  | tuple items | union items =>
    unfold decoder
    exact M.bind (mapEach_decoder hRef items) fun _ => M.pure _
  | inter left right | alt left right =>
    unfold decoder
    exact both_rel M (mapRefs_decoder hRef left) (mapRefs_decoder hRef right) _
  | lazy callSite =>
    unfold decoder
    exact M.bind (hRef callSite) fun _ => M.pure _

theorem mapEach_decoder (hRef : ∀ callSite, M.Rel (g (f callSite)) (h callSite)) (shapes : List Shape) :
    M.Rel (Decoder.mapEach g (decoderEach f shapes)) (decoderEach h shapes) := by
  cases shapes with
  | nil =>
    unfold decoderEach
    exact M.pure _
  | cons s rest =>
    unfold decoderEach
    exact both_rel M (mapRefs_decoder hRef s) (mapEach_decoder hRef rest) _

theorem mapNamed_decoder (hRef : ∀ callSite, M.Rel (g (f callSite)) (h callSite))
    (shapes : List (String × Shape)) :
    M.Rel (Decoder.mapNamed g (decoderNamed f shapes)) (decoderNamed h shapes) := by
  cases shapes with
  | nil =>
    unfold decoderNamed
    exact M.pure _
  | cons e rest =>
    unfold decoderNamed
    exact both_rel M (mapRefs_decoder hRef e.2) (mapNamed_decoder hRef rest) _

end

mutual

theorem mapRefs_guard (hRef : ∀ callSite, M.Rel (g (f callSite)) (h callSite)) (s : Shape) :
    M.Rel ((s.guard f).mapRefs g) (s.guard h) := by
  cases s with
  | any | kind _ | number | literal _ =>
    unfold guard
    exact M.pure _
  | pattern _ _ =>
    unfold guard
    exact M.bind (M.pure _) fun _ => M.pure _
  | refine of _ _ _ | nullable of | record of | array of =>
    unfold guard
    exact M.bind (mapRefs_guard hRef of) fun _ => M.pure _
  | object props | partialObject props | tagged _ props =>
    unfold guard
    exact M.bind (mapNamed_guard hRef props) fun _ => M.pure _
  | tuple items | union items =>
    unfold guard
    exact M.bind (mapEach_guard hRef items) fun _ => M.pure _
  | inter left right =>
    unfold guard
    exact both_rel M (mapRefs_guard hRef left) (mapRefs_guard hRef right) _
  | alt of that =>
    have hThat := both_rel M (mapRefs_guard hRef that) (M.pure []) List.cons
    have hMembers := both_rel M (mapRefs_guard hRef of) hThat List.cons
    unfold guard
    exact M.bind hMembers fun _ => M.pure _
  | lazy callSite =>
    unfold guard
    exact M.bind (hRef callSite) fun _ => M.pure _

theorem mapEach_guard (hRef : ∀ callSite, M.Rel (g (f callSite)) (h callSite)) (shapes : List Shape) :
    M.Rel (Guard.mapEach g (guardEach f shapes)) (guardEach h shapes) := by
  cases shapes with
  | nil =>
    unfold guardEach
    exact M.pure _
  | cons s rest =>
    unfold guardEach
    exact both_rel M (mapRefs_guard hRef s) (mapEach_guard hRef rest) _

theorem mapNamed_guard (hRef : ∀ callSite, M.Rel (g (f callSite)) (h callSite))
    (shapes : List (String × Shape)) :
    M.Rel (Guard.mapNamed g (guardNamed f shapes)) (guardNamed h shapes) := by
  cases shapes with
  | nil =>
    unfold guardNamed
    exact M.pure _
  | cons e rest =>
    unfold guardNamed
    exact both_rel M (mapRefs_guard hRef e.2) (mapNamed_guard hRef rest) _

end

end

/-- What two computations without effects give is the same. -/
def identical : Lockstep Id Id where
  Rel := Eq
  pure _ := rfl
  bind hx hf := by
    subst hx
    exact hf _

/-- Running a shape with some references is running it with call sites that are followed to these. -/
theorem run_decoder {m : Type → Type} [Monad m] (ref : CallSite → ρ) (test : ρ → Test m) (follow : ρ → Check m)
    (s : Shape) : (s.decoder ref).run test follow =
      (s.decoder id).run (fun c => test (ref c)) fun c => follow (ref c) := by
  have hRelink : (s.decoder id).relink ref = s.decoder ref := mapRefs_decoder identical (fun _ => rfl) s
  rw [← hRelink, Decoder.run_relink]

theorem run_guard {m : Type → Type} [Monad m] (ref : CallSite → ρ) (follow : ρ → Test m) (s : Shape) :
    (s.guard ref).run follow = (s.guard id).run fun c => follow (ref c) := by
  have hRelink : (s.guard id).relink ref = s.guard ref := mapRefs_guard identical (fun _ => rfl) s
  rw [← hRelink, Guard.run_relink]

end Shape

end JsonShapes
