import JsonShapes.Proofs.Closed
import JsonShapes.Proofs.Memoization.Interpreters
import JsonShapes.Proofs.Orders.Records

/-! # Decoding in another order

Values that differ in the order of entries only are decoded to values that do, if nothing else that is asked about
them looks at that order. Records decode their entries one after the other, so there it must not matter either
which of them is the first to define something.
-/
namespace JsonShapes
set_option autoImplicit false

/-! ## Decoders -/

/-- Wherever its references lead, if what is behind them is coupled with itself on alike values, then so is the
decoder. It may only have records in it where `records` holds. -/
def Decoder.Orderly {σ : Type} (L : Likeness) (records : Prop) (d : Decoder σ) : Prop :=
  ∀ {m : Type → Type} [Monad m] (C : Coupling m), (records → C.KeepsRecords L) →
    ∀ (test : σ → Test m) (follow : σ → Check m), (∀ ref, C.Checks L (follow ref)) → C.Checks L (d.run test follow)

/-- What the values that a schema is made with must not tell about the order of entries. -/
def Schema.Orderly (L : Likeness) (records : Prop) : Schema → Prop
  | kind k => ∀ v w : Value, v.Alike w → v.kind = k → L.Rel v w
  | literal values => ∀ v w : Value, v.Alike w → values.contains v = true → L.Rel v w
  | record _ => records
  | refine _ holds _ => ∀ v w : Value, v.Alike w → holds v = holds w
  | _ => True

section
variable {σ : Type} {L : Likeness} {records : Prop}

theorem Schema.Orderly.decoding {s : Schema} (h : s.Orderly L records) :
    (Interpretation.decoding : Interpretation σ (Decoder σ)).ClosedAt (Decoder.Orderly L records) s := by
  cases s with
  | kind k => exact fun C _ _ _ _ => .kind h
  | literal values => exact fun C _ _ _ _ => .literal h
  | nullable _ => exact fun hd _ _ C hRecords test follow hFollow => (hd C hRecords test follow hFollow).nullable
  | object _ =>
    intro ds _ hds m _ C hRecords test follow hFollow
    exact .object (Decoder.forall_mem_runNamed fun p hp => hds p hp C hRecords test follow hFollow)
  | partialObject _ =>
    intro ds _ hds m _ C hRecords test follow hFollow
    exact .partialObject (Decoder.forall_mem_runNamed fun p hp => hds p hp C hRecords test follow hFollow)
  | record _ => exact fun hd _ _ C hRecords test follow hFollow => hRecords h (hd C hRecords test follow hFollow)
  | array _ => exact fun hd _ _ C hRecords test follow hFollow => (hd C hRecords test follow hFollow).array
  | tuple _ =>
    intro ds hds m _ C hRecords test follow hFollow
    exact .tuple (Decoder.forall_mem_runEach fun d hd => hds d hd C hRecords test follow hFollow)
  | union _ =>
    intro ds hds m _ C hRecords test follow hFollow
    exact .union (Decoder.forall_mem_runEach fun d hd => hds d hd C hRecords test follow hFollow)
  | inter _ _ =>
    intro d e hd he m _ C hRecords test follow hFollow
    exact (hd C hRecords test follow hFollow).inter (he C hRecords test follow hFollow)
  | tagged tag _ =>
    intro ds _ hds m _ C hRecords test follow hFollow
    exact .tagged tag (Decoder.forall_mem_runNamed fun p hp => hds p hp C hRecords test follow hFollow)
  | refine _ holds expected =>
    exact fun hd _ _ C hRecords test follow hFollow => (hd C hRecords test follow hFollow).refine expected h
  | lazy link => exact fun ref _ _ C _ test follow hFollow => (hFollow ref).lazy link.id
  | make _ _ => trivial

end

/-! ## Following references -/

namespace Resolver
variable {m : Type → Type} [Monad m] [MonadExceptOf Unit m] {ρ : Type} {L : Likeness} {records : Prop}
variable {C : Coupling m} {r : Resolver m ρ}

theorem followCheck_orderly (hRecords : records → C.KeepsRecords L)
    (hStop : C.Holds (Checked.Related L.Rel) (throw () : m (Decoded Value)) (throw () : m (Decoded Value)))
    (hDecoder : ∀ ref, C.Holds (fun d d' => d = d' ∧ d.Orderly L records) (r.decoder ref) (r.decoder ref))
    (bound : Nat) (ref : ρ) : C.Checks L (r.followCheck bound ref) := by
  induction bound generalizing ref with
  | zero => exact fun _ _ _ => hStop
  | succ n ih =>
    intro v w hvw
    apply C.bind (hDecoder ref)
    rintro d _ ⟨rfl, hd⟩
    exact hd C hRecords _ _ ih v w hvw

end Resolver

/-! ## Without stores -/

section
variable {definitions : Definitions} {schema : Schema} {v w : Value}

theorem Schema.decode_orderly (h : ∀ t ∈ schema.nodes ++ nodesNamed definitions, t.Orderly .alike True) (bound : Nat) :
    Coupling.plain.Checks .alike (schema.decode definitions bound) := by
  obtain ⟨hSchema, hDefinitions⟩ := List.forall_mem_append.mp h
  have hUnfold : ∀ s : Schema, (∀ t ∈ s.nodes, t.Orderly .alike True) →
      (s.unfold .decoding : Decoder Link).Orderly .alike True :=
    fun s hs => unfold_closedAt fun t ht => (hs t ht).decoding
  have hRecords : True → Coupling.plain.KeepsRecords .alike := fun _ => Coupling.plain_keepsRecords
  have hDecoder : ∀ link, Coupling.plain.Holds (fun d d' => d = d' ∧ d.Orderly .alike True)
      ((Definitions.resolver definitions).decoder link) ((Definitions.resolver definitions).decoder link) := by
    intro link
    change Option.Rel _ (Option.map (unfold .decoding) (definitions.get? link.target))
      (Option.map (unfold .decoding) (definitions.get? link.target))
    cases hFound : definitions.get? link.target with
    | none => exact .none
    | some s =>
      exact .some ⟨rfl, hUnfold s fun t ht => hDefinitions t (mem_nodesNamed (Entries.mem_of_get? hFound) ht)⟩
  exact hUnfold schema hSchema Coupling.plain hRecords _ _ (Resolver.followCheck_orderly hRecords .none hDecoder bound)

end

/-! ## In stores -/

namespace Store
variable {ρ α : Type} {P : ρ → Prop} {Q : α → Prop}

variable (P) in
/-- Runs that begin and end in the same stores, in which nothing is found without the property. -/
def coupled : Coupling (StateT (Store ρ) Option) where
  Holds R x y := ∀ s : Store ρ, s.All P →
    Option.Rel (fun p q => R p.1 q.1 ∧ p.2 = q.2 ∧ q.2.All P) (x.run s) (y.run s)
  pure h _ hAll := .some ⟨h, rfl, hAll⟩
  bind {_ _ _ _ _ _ x y _ _} hx hf s hAll := by
    have hFirst := hx s hAll
    rw [StateT.run_bind, StateT.run_bind]
    generalize x.run s = p at hFirst ⊢
    generalize y.run s = q at hFirst ⊢
    cases hFirst with
    | none => exact .none
    | @some p q hRest =>
      obtain ⟨hResults, hStores, hAll'⟩ := hRest
      change Option.Rel _ (StateT.run _ p.2) (StateT.run _ q.2)
      rw [hStores]
      exact hf p.1 q.1 hResults q.2 hAll'

theorem coupled_self {x : StateT (Store ρ) Option α} (h : (running P).Holds x Q) :
    (coupled P).Holds (fun a b => a = b ∧ Q a) x x := by
  intro s hAll
  cases hRun : x.run s with
  | none => exact .none
  | some p =>
    obtain ⟨hAll', hResult⟩ := h s hAll p.1 p.2 hRun
    exact .some ⟨⟨rfl, hResult⟩, rfl, hAll'⟩

end Store

namespace Interpreter
variable {definitions : Definitions} {schema : Schema} {v w : Value} {L : Likeness}

/-- Without records it does not matter what is shared under identifiers, sites and keys. -/
theorem fresh_orderly (h : ∀ t ∈ schema.nodes ++ Schema.nodesNamed definitions, t.Orderly L False) (bound : Nat)
    (hAlike : v.Alike w) : Option.Rel (Checked.Related L.Rel) (decoders.fresh definitions bound schema v)
      (decoders.fresh definitions bound schema w) := by
  obtain ⟨hSchema, hDefinitions⟩ := List.forall_mem_append.mp h
  have hBuild : ∀ s : Schema, (∀ t ∈ s.nodes, t.Orderly L False) →
      (Store.building (Decoder.Orderly L False)).Holds (s.build .decoding) (Decoder.Orderly L False) :=
    fun s hs => Schema.build_closedAt fun t ht => (hs t ht).decoding
  have hResolve := fun handle => Store.coupled_self (Store.resolve_promise
    (fun e he => hBuild e.2 fun t ht => hDefinitions t (Schema.mem_nodesNamed he ht)) handle)
  have hAnswer : (Store.coupled (Decoder.Orderly L False)).Holds (Checked.Related L.Rel)
      (decoders.answer definitions bound schema v) (decoders.answer definitions bound schema w) := by
    apply (Store.coupled _).bind (Store.coupled_self (Store.build_promise (hBuild schema hSchema)))
    rintro d _ ⟨rfl, hd⟩
    exact hd _ False.elim _ _ (Resolver.followCheck_orderly False.elim (fun _ _ => .none) hResolve bound) v w hAlike
  have hRuns := hAnswer Store.empty Store.all_empty
  have hFresh : ∀ u, decoders.fresh definitions bound schema u =
      ((decoders.answer definitions bound schema u).run Store.empty).map Prod.fst := fun _ => rfl
  rw [hFresh, hFresh]
  generalize (decoders.answer definitions bound schema v).run Store.empty = p at hRuns ⊢
  generalize (decoders.answer definitions bound schema w).run Store.empty = q at hRuns ⊢
  cases hRuns with
  | none => exact .none
  | some hRest => exact .some hRest.1

end Interpreter

/-! ## Schemas -/

namespace Schema

/-- No predicate looks at the order of entries. -/
def Impartial : Schema → Prop
  | refine _ holds _ => ∀ v w : Value, v.Alike w → holds v = holds w
  | _ => True

def Recordless : Schema → Prop
  | record _ => False
  | _ => True

/-- The objects that are decoded here have their entries in an order of their own. -/
def Arranged : Schema → Prop
  | kind k => k ≠ .object
  | literal values => ∀ v ∈ values, v.ObjectFree
  | record _ => False
  | _ => True

variable {s : Schema}

theorem Impartial.orderly {records : Prop} (h : s.Impartial) (hRecords : s.Recordless ∨ records) :
    s.Orderly .alike records := by
  cases s with
  | kind k => exact fun _ _ hAlike _ => hAlike
  | literal values => exact fun _ _ hAlike _ => hAlike
  | record _ => exact hRecords.resolve_left False.elim
  | refine _ _ _ => exact h
  | _ => trivial

theorem Impartial.arranged (h : s.Impartial) (hArranged : s.Arranged) (hArray : s ≠ .kind .array) :
    s.Orderly .identical False := by
  cases s with
  | kind k =>
    intro v w hAlike hKind
    refine hAlike.eq_of_kind (fun hSame => hArray ?_) (fun hSame => hArranged ?_)
    · rw [← hKind, hSame]
    · rw [← hKind, hSame]
  | literal values =>
    intro v w hAlike hMem
    obtain ⟨u, hu, hEqual⟩ := List.contains_iff_exists_mem_beq.mp hMem
    exact hAlike.eq_of_objectFree (Value.objectFree_of_beq hEqual (hArranged u hu))
  | record _ => exact hArranged
  | refine _ _ _ => exact h
  | _ => trivial

end Schema

namespace Interpreter
variable {definitions : Definitions} {schema : Schema} {v w : Value}

theorem decoding_disregards_order (hImpartial : ∀ t ∈ schema.nodes ++ Schema.nodesNamed definitions, t.Impartial)
    (hShared : (∃ A, definitions.Follow A ∧ schema.Follows A) ∨
      ∀ t ∈ schema.nodes ++ Schema.nodesNamed definitions, t.Recordless)
    (bound : Nat) (hAlike : v.Alike w) :
    Option.Rel (Checked.Related Value.Alike) (decoders.fresh definitions bound schema v)
        (decoders.fresh definitions bound schema w) ∧
      ((∀ t ∈ schema.nodes ++ Schema.nodesNamed definitions, t.Arranged ∧ t ≠ .kind .array) →
        Option.Rel (Checked.Related Eq) (decoders.fresh definitions bound schema v)
          (decoders.fresh definitions bound schema w)) := by
  constructor
  · rcases hShared with ⟨A, hDefinitions, hSchema⟩ | hRecordless
    · rw [fresh_eq decoders_faithful hDefinitions hSchema, fresh_eq decoders_faithful hDefinitions hSchema]
      exact Schema.decode_orderly (fun t ht => (hImpartial t ht).orderly (.inr trivial)) bound v w hAlike
    · exact fresh_orderly (fun t ht => (hImpartial t ht).orderly (.inl (hRecordless t ht))) bound hAlike
  · intro hArranged
    exact fresh_orderly (fun t ht => (hImpartial t ht).arranged (hArranged t ht).1 (hArranged t ht).2) bound hAlike

end Interpreter

/-! ## A grove

A tree has a name, and trees in a record below it.
-/

namespace Grove

def link : Link := ⟨"Tree", 0, "Tree"⟩

def definitions : Definitions :=
  [("Tree", .inter (.refine (.object [("name", .kind .string)]) (Value.has "name") "named")
    (.partialObject [("below", .record (.lazy link))]))]

def leaf (name : String) : Value := .obj [("name", .str name)]

def planted : Value :=
  .obj [("below", .obj [("left", leaf "ash"), ("right", leaf "elm")]), ("name", .str "oak")]

def replanted : Value :=
  .obj [("name", .str "oak"), ("below", .obj [("right", leaf "elm"), ("left", leaf "ash")])]

theorem leaf_alike (name : String) : (leaf name).Alike (leaf name) :=
  .of_perm (List.nodup_singleton _) (.cons ⟨rfl, .refl trivial⟩ .nil) (.refl _)

theorem planted_alike : planted.Alike replanted := by
  refine .of_perm (by decide) ?_ (.swap _ _ _)
  refine .cons ⟨rfl, ?_⟩ (.cons ⟨rfl, .refl trivial⟩ .nil)
  refine .of_perm (by decide) ?_ (.swap _ _ _)
  exact .cons ⟨rfl, leaf_alike "ash"⟩ (.cons ⟨rfl, leaf_alike "elm"⟩ .nil)

theorem tree_impartial : ∀ t ∈ (Schema.lazy link).nodes ++ Schema.nodesNamed definitions, t.Impartial := by
  simp only [definitions, Schema.nodes, Schema.nodesNamed, List.cons_append, List.nil_append, List.append_nil,
    List.forall_mem_cons, Schema.Impartial, true_and]
  exact ⟨fun _ _ hAlike => hAlike.has_eq "name", List.forall_mem_nil _⟩

theorem tree_shared : ∃ A, definitions.Follow A ∧ (Schema.lazy link).Follows A := by
  refine ⟨⟨fun _ _ => "Tree", fun _ => .lazy link⟩, fun e he => ?_, ?_⟩
  · cases List.mem_singleton.mp he
    refine ⟨fun found hFound => ?_, List.forall_mem_nil _⟩
    cases List.mem_singleton.mp hFound
    rfl
  · refine ⟨fun found hFound => ?_, List.forall_mem_nil _⟩
    cases List.mem_singleton.mp hFound
    rfl

end Grove

/-! ## Twins

Two definitions that refer to one place in the program with different thunks, or are made under one key.
Whichever is followed first decides what is found.
-/

namespace Twins

def definitions : Definitions :=
  [("First", .lazy ⟨"Inner", 0, "Text"⟩), ("Second", .lazy ⟨"Inner", 0, "Number"⟩), ("Text", .kind .string),
    ("Number", .kind .number)]

def either : Schema := .partialObject [("a", .lazy ⟨"First", 1, "First"⟩), ("b", .lazy ⟨"Second", 2, "Second"⟩)]

def pair : Value := .obj [("a", .str "x"), ("b", .str "y")]

def swappedPair : Value := .obj [("b", .str "y"), ("a", .str "x")]

def split : Value := .obj [("p", .obj [("a", .str "x")]), ("q", .obj [("b", .str "y")])]

def swappedSplit : Value := .obj [("q", .obj [("b", .str "y")]), ("p", .obj [("a", .str "x")])]

theorem pair_alike : pair.Alike swappedPair := by
  refine .of_perm (by decide) ?_ (.swap _ _ _)
  exact .cons ⟨rfl, .refl trivial⟩ (.cons ⟨rfl, .refl trivial⟩ .nil)

theorem split_alike : split.Alike swappedSplit := by
  have hAlone : ∀ name text, (Value.obj [(name, .str text)]).Alike (.obj [(name, .str text)]) := fun _ _ =>
    .of_perm (List.nodup_singleton _) (.cons ⟨rfl, .refl trivial⟩ .nil) (.refl _)
  refine .of_perm (by decide) ?_ (.swap _ _ _)
  exact .cons ⟨rfl, hAlone "a" "x"⟩ (.cons ⟨rfl, hAlone "b" "y"⟩ .nil)

def key : SchemaKey := ⟨"Scalar", none⟩

/-- Here the places differ, but what is found there is made under one key. -/
def namesakes : Definitions :=
  [("First", .make (some key) (.kind .string)), ("Second", .make (some key) (.kind .number))]

theorem either_plain : ∀ t ∈ either.nodes ++ Schema.nodesNamed definitions,
    t.Impartial ∧ t.Recordless ∧ t.Arranged ∧ t ≠ .kind .array := by
  simp [either, definitions, Schema.nodes, Schema.nodesNamed, Schema.Impartial, Schema.Recordless, Schema.Arranged]

end Twins

/-- In the grove a record keeps the order in which it was given, and all else comes as it was declared. Of the
twins the first is followed first, whatever the order in which the values are given. -/
theorem order_disregarded :
    (Grove.planted.Alike Grove.replanted ∧
      ∃ a, Interpreter.decoders.fresh Grove.definitions 2 (.lazy Grove.link) Grove.planted = some (.ok a) ∧
        Interpreter.decoders.fresh Grove.definitions 2 (.lazy Grove.link) Grove.replanted =
          some (.ok Grove.replanted) ∧
        a.Alike Grove.replanted) ∧
      Twins.pair.Alike Twins.swappedPair ∧
      Interpreter.decoders.fresh Twins.definitions 2 Twins.either Twins.pair = some (.ok Twins.pair) ∧
      Interpreter.decoders.fresh Twins.definitions 2 Twins.either Twins.swappedPair = some (.ok Twins.pair) := by
  have hGrove := Interpreter.decoding_disregards_order Grove.tree_impartial (.inl Grove.tree_shared) 2
    Grove.planted_alike
  have hTwins := Interpreter.decoding_disregards_order (fun t ht => (Twins.either_plain t ht).1)
    (.inr fun t ht => (Twins.either_plain t ht).2.1) 2 Twins.pair_alike
  have hSame := hTwins.2 fun t ht => (Twins.either_plain t ht).2.2
  have hPair : Interpreter.decoders.fresh Twins.definitions 2 Twins.either Twins.pair = some (.ok Twins.pair) := rfl
  refine ⟨⟨Grove.planted_alike, _, rfl, rfl, ?_⟩, Twins.pair_alike, hPair, ?_⟩
  · cases hGrove.1 with
    | some hResults => exact hResults.ok_ok
  · rw [hPair] at hSame
    generalize Interpreter.decoders.fresh Twins.definitions 2 Twins.either Twins.swappedPair = outcome at hSame ⊢
    cases hSame with
    | some hResults =>
      cases hResults with
      | ok hEqual => rw [hEqual]

/-- An array that is taken over as it is keeps the objects in it as they are, and in a record the order decides
which of two thunks is first. -/
theorem order_regarded :
    ((∀ t ∈ (Schema.kind .array).nodes ++ Schema.nodesNamed [], t.Impartial ∧ t.Arranged) ∧
      (Value.arr [Twins.pair]).Alike (.arr [Twins.swappedPair]) ∧
      Interpreter.decoders.fresh [] 0 (.kind .array) (.arr [Twins.pair]) = some (.ok (.arr [Twins.pair])) ∧
      Interpreter.decoders.fresh [] 0 (.kind .array) (.arr [Twins.swappedPair]) =
        some (.ok (.arr [Twins.swappedPair])) ∧
      Value.arr [Twins.pair] ≠ .arr [Twins.swappedPair]) ∧
    (∀ t ∈ (Schema.record Twins.either).nodes ++ Schema.nodesNamed Twins.definitions, t.Impartial) ∧
      Twins.split.Alike Twins.swappedSplit ∧
      Interpreter.decoders.fresh Twins.definitions 2 (.record Twins.either) Twins.split = some (.ok Twins.split) ∧
      ∃ e, Interpreter.decoders.fresh Twins.definitions 2 (.record Twins.either) Twins.swappedSplit =
        some (.error e) := by
  refine ⟨⟨?_, .arr (.cons Twins.pair_alike .nil), rfl, rfl, ?_⟩, ?_, Twins.split_alike, rfl, _, rfl⟩
  · simp [Schema.nodes, Schema.nodesNamed, Schema.Impartial, Schema.Arranged]
  · simp [Twins.pair, Twins.swappedPair]
  · simp [Twins.either, Twins.definitions, Schema.nodes, Schema.nodesNamed, Schema.Impartial]

/-- The order in a record decides as well which of two schemas with one key is kept. -/
theorem order_of_keys_regarded :
    (∀ t ∈ (Schema.record Twins.either).nodes ++ Schema.nodesNamed Twins.namesakes, t.Impartial) ∧
      (∀ l ∈ Twins.either.links ++ Schema.linksNamed Twins.namesakes,
        ∀ l' ∈ Twins.either.links ++ Schema.linksNamed Twins.namesakes, l.id = l'.id → l.site = l'.site → l = l') ∧
      Twins.split.Alike Twins.swappedSplit ∧
      Interpreter.decoders.fresh Twins.namesakes 1 (.record Twins.either) Twins.split = some (.ok Twins.split) ∧
      ∃ e, Interpreter.decoders.fresh Twins.namesakes 1 (.record Twins.either) Twins.swappedSplit =
        some (.error e) := by
  refine ⟨?_, by decide, Twins.split_alike, rfl, _, rfl⟩
  simp [Twins.either, Twins.namesakes, Schema.nodes, Schema.nodesNamed, Schema.Impartial]

end JsonShapes
