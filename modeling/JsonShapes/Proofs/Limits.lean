import JsonShapes.Proofs.Lockstep

/-! # Decoding and encoding without a bound

A shape that comes to its end under one bound does so under every larger one, with the same result. So there are
readings of schemas without any bound, which give what is given under all bounds that are large enough.
-/
namespace JsonShapes
set_option autoImplicit false

namespace Lockstep

/-- Whatever the first run gives, the second gives too. -/
def defined : Lockstep Option Option where
  Rel x y := ∀ a, x = some a → y = some a
  pure _ _ h := h
  bind hx hf b hb := by
    obtain ⟨a, ha, hb⟩ := Option.bind_eq_some_iff.mp hb
    exact Option.bind_eq_some_iff.mpr ⟨a, hx a ha, hf a b hb⟩

/-- Whatever the first run gives, the second gives under every bound that is large enough. -/
def eventual : Lockstep Option (ReaderT Nat Option) where
  Rel x y := ∀ a, x = some a → ∃ enough, ∀ n, enough ≤ n → y.run n = some a
  pure _ _ h := ⟨0, fun _ _ => h⟩
  bind hx hf b hb := by
    obtain ⟨a, ha, hb⟩ := Option.bind_eq_some_iff.mp hb
    obtain ⟨enough, hFirst⟩ := hx a ha
    obtain ⟨enough', hRest⟩ := hf a b hb
    refine ⟨max enough enough', fun n hn => ?_⟩
    rw [ReaderT.run_bind]
    have hFirst := hFirst n (Nat.le_trans (Nat.le_max_left ..) hn)
    have hRest := hRest n (Nat.le_trans (Nat.le_max_right ..) hn)
    exact Option.bind_eq_some_iff.mpr ⟨a, hFirst, hRest⟩

/-- The first run is the second when it is given the bound. -/
def under (n : Nat) : Lockstep (ReaderT Nat Option) Option where
  Rel x y := x.run n = y
  pure _ := rfl
  bind hx hf := by
    subst hx
    rw [ReaderT.run_bind]
    exact congrArg _ (funext hf)

end Lockstep

variable {definitions : Definitions}

section
variable {out : Type}

/-- What is read goes in lockstep with what is read where links are followed in lockstep. -/
def Interpretation.Parametric
    (read : {m : Type → Type} → [Monad m] → (Link → Value → m out) → Interpretation Link (Value → m out)) : Prop :=
  ∀ {m n : Type → Type} [Monad m] [Monad n] (M : Lockstep m n) (f : Link → Value → m out) (g : Link → Value → n out),
    (∀ link, M.Pointwise (f link) (g link)) → ∀ s : Schema, M.Pointwise (s.unfold (read f)) (s.unfold (read g))

variable {read : {m : Type → Type} → [Monad m] → (Link → Value → m out) → Interpretation Link (Value → m out)}

theorem Definitions.follow_mono (hRead : Interpretation.Parametric read) {m n : Nat} (hBound : m ≤ n) (link : Link) :
    Lockstep.defined.Pointwise (definitions.follow read m link) (definitions.follow read n link) := by
  induction m generalizing n link with
  | zero =>
    intro v r hr
    cases hr
  | succ m ih =>
    intro v r hr
    obtain ⟨n, rfl⟩ := Nat.exists_eq_add_of_lt hBound
    obtain ⟨s, hFound, hr⟩ := Option.bind_eq_some_iff.mp hr
    exact Option.bind_eq_some_iff.mpr ⟨s, hFound, hRead _ _ _ (ih (Nat.le_add_right m n)) s v r hr⟩

/-- What following a link gives, if it ever comes to an end. -/
noncomputable def Definitions.reach (definitions : Definitions)
    (read : (Link → Value → Option out) → Interpretation Link (Value → Option out)) (link : Link) :
    Value → Option out :=
  fun v => open Classical in if h : ∃ r n, definitions.follow read n link v = some r then some h.choose else none

theorem Definitions.reach_eq_some_iff (hRead : Interpretation.Parametric read) {link : Link} {v : Value} {r : out} :
    definitions.reach read link v = some r ↔ ∃ n, definitions.follow read n link v = some r := by
  unfold reach
  split
  · rename_i h
    obtain ⟨m, hm⟩ := h.choose_spec
    rw [Option.some.injEq]
    constructor
    · intro hr
      exact ⟨m, hr ▸ hm⟩
    · rintro ⟨n, hn⟩
      have hLeft := follow_mono hRead (Nat.le_max_left m n) link v _ hm
      have hRight := follow_mono hRead (Nat.le_max_right m n) link v _ hn
      exact Option.some.inj (hLeft.symm.trans hRight)
  · rename_i h
    refine iff_of_false (fun hr => nomatch hr) ?_
    rintro ⟨n, hn⟩
    exact h ⟨r, n, hn⟩

namespace Schema
variable {s : Schema} {v : Value} {r : out}

theorem unfold_reach_of_follow (hRead : Interpretation.Parametric read) {n : Nat}
    (h : s.unfold (read (definitions.follow read n)) v = some r) :
    s.unfold (read (definitions.reach read)) v = some r := by
  refine hRead Lockstep.defined _ _ (fun link v result hResult => ?_) s v r h
  exact (Definitions.reach_eq_some_iff hRead).mpr ⟨n, hResult⟩

/-- Of all bounds it is the large ones that give a result. -/
theorem unfold_follow_of_reach (hRead : Interpretation.Parametric read)
    (h : s.unfold (read (definitions.reach read)) v = some r) :
    ∃ enough, ∀ n, enough ≤ n → s.unfold (read (definitions.follow read n)) v = some r := by
  have hEventual := hRead Lockstep.eventual (definitions.reach read)
    (fun link v (n : Nat) => definitions.follow read n link v) (fun link v result hResult => by
      obtain ⟨enough, hEnough⟩ := (Definitions.reach_eq_some_iff hRead).mp hResult
      exact ⟨enough, fun n hn => Definitions.follow_mono hRead hn link v result hEnough⟩) s
  obtain ⟨enough, hEnough⟩ := hEventual v r h
  refine ⟨enough, fun n hn => ?_⟩
  have hUnder := hRead (Lockstep.under n) (fun link v (n : Nat) => definitions.follow read n link v)
    (definitions.follow read n) (fun _ _ => rfl) s
  exact (hUnder v).symm.trans (hEnough n hn)

end Schema

end

theorem Interpretation.checking_parametric : Parametric checking := by
  intro m n _ _ M f g h s
  apply s.unfold_related (Lockstep.checking M f g)
  intro link _ v
  exact M.bind (h link v) fun _ => M.pure _

theorem Interpretation.testing_parametric : Parametric testing := by
  intro m n _ _ M f g h s
  exact s.unfold_related (Lockstep.testing M f g) fun link _ => h link

theorem Interpretation.transforming_parametric : Parametric transforming := by
  intro m n _ _ M f g h s
  exact s.unfold_related (Lockstep.transforming M f g) fun link _ => h link

namespace Schema
variable {s : Schema} {v : Value} {r : Decoded Value}

theorem decode_mono {m n : Nat} (hBound : m ≤ n) (h : s.decode definitions m v = some r) :
    s.decode definitions n v = some r := by
  rw [decode_eq] at h ⊢
  exact Interpretation.checking_parametric Lockstep.defined _ _
    (Definitions.follow_mono Interpretation.checking_parametric hBound) s v r h

theorem accepts_mono {m n : Nat} (hBound : m ≤ n) {answer : Bool} (h : s.accepts definitions m v = some answer) :
    s.accepts definitions n v = some answer := by
  rw [accepts_eq] at h ⊢
  exact Interpretation.testing_parametric Lockstep.defined _ _
    (Definitions.follow_mono Interpretation.testing_parametric hBound) s v answer h

theorem encode_mono {m n : Nat} (hBound : m ≤ n) {w : Value} (h : s.encode definitions m v = some w) :
    s.encode definitions n v = some w := by
  rw [encode_eq] at h ⊢
  exact Interpretation.transforming_parametric Lockstep.defined _ _
    (Definitions.follow_mono Interpretation.transforming_parametric hBound) s v w h

/-! ## Decoding -/

/-- The reading of a schema whose links are followed as far as it takes. -/
noncomputable def evaluate (definitions : Definitions) (s : Schema) : Check Option :=
  s.unfold (.checking (definitions.reach .checking))

theorem evaluate_of_decode {n : Nat} (h : s.decode definitions n v = some r) : s.evaluate definitions v = some r := by
  rw [decode_eq] at h
  exact unfold_reach_of_follow Interpretation.checking_parametric h

theorem decode_of_evaluate (h : s.evaluate definitions v = some r) :
    ∃ enough, ∀ n, enough ≤ n → s.decode definitions n v = some r := by
  simp only [decode_eq]
  exact unfold_follow_of_reach Interpretation.checking_parametric h

theorem evaluate_eq_some_iff :
    s.evaluate definitions v = some r ↔ ∃ n, s.decode definitions n v = some r := by
  constructor
  · intro h
    obtain ⟨enough, hEnough⟩ := decode_of_evaluate h
    exact ⟨enough, hEnough enough (Nat.le_refl _)⟩
  · rintro ⟨n, hn⟩
    exact evaluate_of_decode hn

theorem evaluate_lazy (link : Link) (hFound : definitions.get? link.target = some s) :
    (lazy link).evaluate definitions = Check.lazy link.id (s.evaluate definitions) := by
  funext v
  apply Option.ext
  intro r
  rw [evaluate_eq_some_iff]
  constructor
  · rintro ⟨n, hn⟩
    cases n with
    | zero => cases hn
    | succ n =>
      rw [decode_lazy_succ, hFound, Option.bind_some] at hn
      obtain ⟨result, hResult, hr⟩ := Option.bind_eq_some_iff.mp hn
      exact Option.bind_eq_some_iff.mpr ⟨result, evaluate_of_decode hResult, hr⟩
  · intro h
    obtain ⟨result, hResult, hr⟩ := Option.bind_eq_some_iff.mp h
    obtain ⟨n, hn⟩ := evaluate_eq_some_iff.mp hResult
    refine ⟨n + 1, ?_⟩
    rw [decode_lazy_succ, hFound, Option.bind_some]
    exact Option.bind_eq_some_iff.mpr ⟨result, hn, hr⟩

/-! ## Encoding -/

/-- The transform of a schema whose links are followed as far as it takes. -/
noncomputable def write (definitions : Definitions) (s : Schema) : Transform Option :=
  s.unfold (.transforming (definitions.reach .transforming))

theorem write_of_encode {n : Nat} {w : Value} (h : s.encode definitions n v = some w) :
    s.write definitions v = some w := by
  rw [encode_eq] at h
  exact unfold_reach_of_follow Interpretation.transforming_parametric h

theorem encode_of_write {w : Value} (h : s.write definitions v = some w) :
    ∃ enough, ∀ n, enough ≤ n → s.encode definitions n v = some w := by
  simp only [encode_eq]
  exact unfold_follow_of_reach Interpretation.transforming_parametric h

theorem write_eq_some_iff {w : Value} : s.write definitions v = some w ↔ ∃ n, s.encode definitions n v = some w := by
  constructor
  · intro h
    obtain ⟨enough, hEnough⟩ := encode_of_write h
    exact ⟨enough, hEnough enough (Nat.le_refl _)⟩
  · rintro ⟨n, hn⟩
    exact write_of_encode hn

theorem write_lazy (link : Link) (hFound : definitions.get? link.target = some s) :
    (lazy link).write definitions = s.write definitions := by
  funext v
  apply Option.ext
  intro w
  rw [write_eq_some_iff, write_eq_some_iff]
  constructor
  · rintro ⟨n, hn⟩
    cases n with
    | zero => cases hn
    | succ n =>
      rw [encode_lazy_succ, hFound, Option.bind_some] at hn
      exact ⟨n, hn⟩
  · rintro ⟨n, hn⟩
    refine ⟨n + 1, ?_⟩
    rw [encode_lazy_succ, hFound, Option.bind_some]
    exact hn

end Schema

end JsonShapes
