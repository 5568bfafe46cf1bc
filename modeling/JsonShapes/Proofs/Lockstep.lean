import JsonShapes.Proofs.Promises
import JsonShapes.Proofs.Semantics

/-! # Runs in lockstep

Two monads are compared by a relation between their computations that returning and sequencing keep.
Every combinator is written with these two alone, so a shape that is run in both monads gives related
computations as soon as following its references does. Sessions are compared in this way with the
direct evaluation.
-/
namespace JsonShapes
set_option autoImplicit false

structure Lockstep (m n : Type → Type) [Monad m] [Monad n] where
  Rel : {α : Type} → m α → n α → Prop
  pure : ∀ {α : Type} (a : α), Rel (Pure.pure a : m α) (Pure.pure a : n α)
  bind : ∀ {α β : Type} {x : m α} {y : n α} {f : α → m β} {g : α → n β},
    Rel x y → (∀ a, Rel (f a) (g a)) → Rel (x >>= f) (y >>= g)

namespace Lockstep
variable {m n : Type → Type} [Monad m] [Monad n] (M : Lockstep m n) {α β τ υ : Type}

/-! ## Loops -/

theorem mapM {R : τ → υ → Prop} {xs : List τ} {ys : List υ} (h : List.Forall₂ R xs ys)
    {f : τ → m α} {g : υ → n α} (hStep : ∀ x y, R x y → M.Rel (f x) (g y)) :
    M.Rel (xs.mapM f) (ys.mapM g) := by
  have hLoop : ∀ done, M.Rel (List.mapM.loop f xs done) (List.mapM.loop g ys done) := by
    induction h with
    | nil => exact fun done => M.pure _
    | cons hHead _ ih => exact fun done => M.bind (hStep _ _ hHead) fun a => ih (a :: done)
  exact hLoop []

theorem allM {R : τ → υ → Prop} {xs : List τ} {ys : List υ} (h : List.Forall₂ R xs ys)
    {f : τ → m Bool} {g : υ → n Bool} (hStep : ∀ x y, R x y → M.Rel (f x) (g y)) :
    M.Rel (xs.allM f) (ys.allM g) := by
  induction h with
  | nil => exact M.pure _
  | cons hHead _ ih =>
    apply M.bind (hStep _ _ hHead)
    intro b
    cases b with
    | true => exact ih
    | false => exact M.pure _

theorem anyM {R : τ → υ → Prop} {xs : List τ} {ys : List υ} (h : List.Forall₂ R xs ys)
    {f : τ → m Bool} {g : υ → n Bool} (hStep : ∀ x y, R x y → M.Rel (f x) (g y)) :
    M.Rel (xs.anyM f) (ys.anyM g) := by
  induction h with
  | nil => exact M.pure _
  | cons hHead _ ih =>
    apply M.bind (hStep _ _ hHead)
    intro b
    cases b with
    | true => exact M.pure _
    | false => exact ih

theorem traverseIndexed {ε : Type} {R : τ → υ → Prop} {xs : List τ} {ys : List υ}
    (h : List.Forall₂ R xs ys) {f : Nat → τ → m (Checked ε α)} {g : Nat → υ → n (Checked ε α)}
    (hStep : ∀ i x y, R x y → M.Rel (f i x) (g i y)) :
    M.Rel (Checked.traverseIndexed xs f) (Checked.traverseIndexed ys g) := by
  refine M.bind (M.mapM (forall₂_zipIdx h 0) ?_) fun _ => M.pure _
  rintro ⟨x, i⟩ ⟨y, j⟩ ⟨hIndex, hxy⟩
  cases hIndex
  exact hStep i x y hxy

theorem traverseKeyed {ε : Type} {R : τ → υ → Prop} {xs : Entries τ} {ys : Entries υ}
    (h : Entries.Related R xs ys) {f : String → τ → m (Checked ε α)}
    {g : String → υ → n (Checked ε α)} (hStep : ∀ name x y, R x y → M.Rel (f name x) (g name y)) :
    M.Rel (Checked.traverseKeyed xs f) (Checked.traverseKeyed ys g) := by
  refine M.bind (M.mapM h ?_) fun _ => M.pure _
  rintro ⟨k, x⟩ ⟨l, y⟩ ⟨hKey, hxy⟩
  cases hKey
  exact M.bind (hStep k x y hxy) fun _ => M.pure _

def Pointwise (f : Value → m α) (g : Value → n α) : Prop := ∀ v, M.Rel (f v) (g v)

/-! ## Combinators -/

variable {σ : Type}

theorem firstOf {cs : List (Check m)} {ds : List (Check n)} (h : List.Forall₂ M.Pointwise cs ds)
    (v : Value) (start : Nat) : M.Rel (Check.firstOf v start cs) (Check.firstOf v start ds) := by
  induction h generalizing start with
  | nil => exact M.pure _
  | cons hHead _ ih =>
    apply M.bind (hHead v)
    intro r
    cases r with
    | ok w => exact M.pure _
    | error e =>
      apply M.bind (ih (start + 1))
      intro rest
      cases rest <;> exact M.pure _

theorem checking (f : σ → Check m) (g : σ → Check n) :
    (Interpretation.checking f).Related M.Pointwise (Interpretation.checking g) where
  kind _ _ := M.pure _
  literal _ _ := M.pure _
  nullable h v := by
    cases v with
    | null => exact M.pure _
    | _ =>
      apply M.bind (h _)
      intro r
      cases r <;> exact M.pure _
  object h v := by
    cases v with
    | obj entries =>
      refine M.bind (M.traverseKeyed h fun name c d hcd => ?_) fun _ => M.pure _
      exact M.bind (hcd _) fun _ => M.pure _
    | _ => exact M.pure _
  partialObject h v := by
    cases v with
    | obj entries =>
      refine M.bind (M.traverseKeyed (h.present entries) ?_) fun _ => M.pure _
      rintro name ⟨c, raw⟩ ⟨d, raw'⟩ ⟨hcd, hRaw⟩
      cases hRaw
      cases raw with
      | null => exact M.pure _
      | _ => exact M.bind (hcd _) fun _ => M.pure _
    | _ => exact M.pure _
  record h v := by
    cases v with
    | obj entries =>
      have hEntries := Entries.related_refl entries
      refine M.bind (M.traverseKeyed hEntries fun name raw raw' hRaw => ?_) fun _ => M.pure _
      cases hRaw
      exact M.bind (h raw) fun _ => M.pure _
    | _ => exact M.pure _
  array h v := by
    cases v with
    | arr items =>
      have hItems : List.Forall₂ Eq items items := List.forall₂_refl items
      refine M.bind (M.traverseIndexed hItems fun i raw raw' hRaw => ?_) fun _ => M.pure _
      cases hRaw
      exact M.bind (h raw) fun _ => M.pure _
    | _ => exact M.pure _
  tuple h v := by
    cases v with
    | arr items =>
      refine M.bind (M.traverseIndexed h fun i c d hcd => ?_) fun values => ?_
      · exact M.bind (hcd _) fun _ => M.pure _
      · rw [h.length_eq]
        exact M.pure _
    | _ => exact M.pure _
  union h v := by
    apply M.bind (M.firstOf h v 0)
    intro r
    match r with
    | .ok _ => exact M.pure _
    | .error [] => exact M.pure _
    | .error (_ :: _) => exact M.pure _
  inter h h' v := M.bind (h v) fun _ => M.bind (h' v) fun _ => M.pure _
  tagged tag _ _ h v := by
    cases v with
    | obj entries =>
      simp only [Interpretation.checking, Check.tagged]
      rcases h.ofList.selected _ with ⟨hLeft, hRight⟩ | ⟨c, d, hLeft, hRight, hcd⟩
      · rw [hLeft, hRight, h.ofList.keys_eq]
        exact M.pure _
      · rw [hLeft, hRight]
        exact hcd _
    | _ => exact M.pure _
  refine holds expected _ _ h v := by
    apply M.bind (h v)
    intro r
    cases r <;> exact M.pure _

theorem testing (f : σ → Test m) (g : σ → Test n) :
    (Interpretation.testing f).Related M.Pointwise (Interpretation.testing g) where
  kind _ _ := M.pure _
  literal _ _ := M.pure _
  nullable h v := by
    cases v with
    | null => exact M.pure _
    | _ => exact h _
  object h v := by
    cases v with
    | obj entries =>
      refine M.allM h ?_
      rintro ⟨k, t⟩ ⟨l, u⟩ ⟨hKey, htu⟩
      cases hKey
      exact htu _
    | _ => exact M.pure _
  partialObject h v := by
    cases v with
    | obj entries =>
      refine M.allM h ?_
      rintro ⟨k, t⟩ ⟨l, u⟩ ⟨hKey, htu⟩
      cases hKey
      dsimp only
      split
      · exact M.pure _
      · exact M.pure _
      · exact htu _
    | _ => exact M.pure _
  record h v := by
    cases v with
    | obj entries =>
      refine M.allM (Entries.related_refl entries) ?_
      rintro ⟨k, raw⟩ ⟨l, raw'⟩ ⟨_, hRaw⟩
      cases hRaw
      exact h raw
    | _ => exact M.pure _
  array h v := by
    cases v with
    | arr items =>
      have hItems : List.Forall₂ Eq items items := List.forall₂_refl items
      apply M.allM hItems
      intro raw raw' hRaw
      rw [hRaw]
      exact h raw'
    | _ => exact M.pure _
  tuple h v := by
    cases v with
    | arr items =>
      change M.Rel (if items.length ≤ _ then _ else _) (if items.length ≤ _ then _ else _)
      rw [h.length_eq]
      split
      · refine M.allM (forall₂_zipIdx h 0) ?_
        rintro ⟨t, i⟩ ⟨u, j⟩ ⟨hIndex, htu⟩
        cases hIndex
        exact htu _
      · exact M.pure _
    | _ => exact M.pure _
  union h v := M.anyM h fun _ _ htu => htu v
  inter h h' v := by
    apply M.bind (h v)
    intro b
    cases b with
    | true => exact h' v
    | false => exact M.pure _
  tagged tag _ _ h v := by
    simp only [Interpretation.testing, Test.tagged]
    rcases h.ofList.selected _ with ⟨hLeft, hRight⟩ | ⟨t, u, hLeft, hRight, htu⟩
    · rw [hLeft, hRight]
      exact M.pure _
    · rw [hLeft, hRight]
      exact htu v
  refine holds _ _ _ h v := by
    apply M.bind (h v)
    intro b
    cases b <;> exact M.pure _

theorem transforming (f : σ → Transform m) (g : σ → Transform n) :
    (Interpretation.transforming f).Related M.Pointwise (Interpretation.transforming g) where
  kind _ _ := M.pure _
  literal _ _ := M.pure _
  nullable h v := by
    cases v with
    | null => exact M.pure _
    | _ => exact h _
  object h v := by
    refine M.bind (M.mapM h ?_) fun _ => M.pure _
    rintro ⟨k, t⟩ ⟨l, u⟩ ⟨hKey, htu⟩
    cases hKey
    exact M.bind (htu _) fun _ => M.pure _
  partialObject h v := by
    refine M.bind (M.mapM (h.present v.entries) ?_) fun _ => M.pure _
    rintro ⟨k, t, raw⟩ ⟨l, u, raw'⟩ ⟨hKey, htu, hRaw⟩
    cases hKey
    cases hRaw
    cases raw with
    | null => exact M.pure _
    | _ => exact M.bind (htu _) fun _ => M.pure _
  record h v := by
    refine M.bind (M.mapM (Entries.related_refl v.entries) ?_) fun _ => M.pure _
    rintro ⟨k, raw⟩ ⟨l, raw'⟩ ⟨hKey, hRaw⟩
    cases hKey
    cases hRaw
    exact M.bind (h raw) fun _ => M.pure _
  array h v := by
    have hItems : List.Forall₂ Eq v.items v.items := List.forall₂_refl v.items
    refine M.bind (M.mapM hItems fun raw raw' hRaw => ?_) fun _ => M.pure _
    cases hRaw
    exact h raw
  tuple h v := by
    refine M.bind (M.mapM (forall₂_zip h v.items) ?_) fun _ => M.pure _
    rintro ⟨raw, t⟩ ⟨raw', u⟩ ⟨hRaw, htu⟩
    cases hRaw
    exact htu raw
  union _ _ := M.pure _
  inter h h' v := M.bind (h v) fun _ => M.bind (h' v) fun _ => M.pure _
  tagged tag _ _ h v := by
    simp only [Interpretation.transforming, Transform.tagged]
    rcases h.ofList.selected _ with ⟨hLeft, hRight⟩ | ⟨t, u, hLeft, hRight, htu⟩
    · rw [hLeft, hRight]
      exact M.pure _
    · rw [hLeft, hRight]
      exact htu v
  refine _ _ _ _ h := h

/-- What a run comes to, if it comes to an end, where nothing is asked of its result. -/
def promised (E : Promises m) (n : Type → Type) [Monad n] : Lockstep m n where
  Rel x _ := E.Holds x fun _ => True
  pure _ := E.pure trivial
  bind hx hf := E.bind hx fun a _ => hf a

/-! ## Runs done again -/

section
variable {σ : Type}

/-- Whatever a run has given, the second gives for the state that is there in the end, or one that comes later. -/
def replaying (Grows : σ → σ → Prop) (hRefl : ∀ s, Grows s s)
    (hTrans : ∀ {s s' s''}, Grows s s' → Grows s' s'' → Grows s s'') (t : σ) : Lockstep (StateT σ Option) Option where
  Rel x y := ∀ {s a s'}, x.run s = some (a, s') → Grows s s' ∧ (Grows s' t → y = some a)
  pure a s _ _ h := by
    cases h
    exact ⟨hRefl s, fun _ => rfl⟩
  bind {α β x y f g} hx hf s b s'' h := by
    obtain ⟨⟨a, s'⟩, hFirst, hRest⟩ := Option.bind_eq_some_iff.mp h
    obtain ⟨hGrows, hFirst'⟩ := hx hFirst
    obtain ⟨hGrows', hRest'⟩ := hf a hRest
    refine ⟨hTrans hGrows hGrows', fun hLater => ?_⟩
    exact Option.bind_eq_some_iff.mpr ⟨a, hFirst' (hTrans hGrows' hLater), hRest' hLater⟩

/-- Whatever the second gives, the run gives and leaves the state as it is. -/
def resting (t : σ) : Lockstep (StateT σ Option) Option where
  Rel x y := ∀ {a}, y = some a → x.run t = some (a, t)
  pure a b h := by
    cases h
    rfl
  bind hx hf b h := by
    obtain ⟨a, hFirst, hRest⟩ := Option.bind_eq_some_iff.mp h
    exact Option.bind_eq_some_iff.mpr ⟨(a, t), hx hFirst, hf a hRest⟩

end

end Lockstep

end JsonShapes
