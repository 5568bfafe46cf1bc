import JsonShapes.Proofs.Numbers.Readers
import JsonShapes.Proofs.Terms
import JsonShapes.Shelves

/-! # Plain decoders

A schema can be written down as a plain decoder, each of its definitions being the blueprint of one. Shelving
that decoder defines on the shelf of decoders what building the schema defines in a store, and the decoders that
are kept there differ only in how they refer to each other. So plain decoders are one more reader of schemas.
-/
namespace JsonShapes
set_option autoImplicit false

def Link.shelved (link : Link) : ShelfLink := ⟨.decoders, link.id, link.site, link.target⟩

def Schema.plain (s : Schema) : Decoder ShelfLink := s.unfold (Interpretation.plain.comap Link.shelved)

def Definitions.plain (definitions : Definitions) : Blueprints :=
  ⟨[], Entries.mapValues Schema.plain definitions, [], []⟩

/-- Shelves the plain decoder on empty shelves and decodes with it. -/
def Schema.decodePlainly (definitions : Definitions) (bound : Nat) (s : Schema) (v : Value) :
    Option (Decoded Value) :=
  StateT.run' (m := Option) (do
    let d ← s.plain.mapRefs Shelves.define
    (Shelves.resolver definitions.plain).decode bound d v) Shelves.empty

/-! ## Stores as shelves -/

abbrev Decoder.shelved : Decoder Nat → Decoder Handle := relink (Handle.mk .decoders)

namespace Store

def shelves (s : Store (Decoder Nat)) : Shelves := ⟨.empty, s.registry.map Decoder.shelved, .empty, .empty⟩

theorem registryPart_translates_shelves :
    Part.Translates shelves Decoder.shelved (registryPart (ρ := Decoder Nat)) Shelves.decoderPart where
  get _ := rfl
  modify h s := congrArg (fun decoders => (⟨.empty, decoders, .empty, .empty⟩ : Shelves)) (h s.registry)

/-- On the shelves of a store the second computation does what the first one does in the store. -/
def Shelved {α β : Type} (g : α → β) (x : StateM (Store (Decoder Nat)) α) (y : StateT Shelves Option β) : Prop :=
  ∀ s, y.run s.shelves = some (g (x.run s).1, (x.run s).2.shelves)

namespace Shelved
variable {α β γ δ : Type} {g : α → β} {h : γ → δ}

theorem pure_of_eq {a : α} {b : β} (hab : g a = b) : Shelved g (pure a) (pure b) := fun _ => hab ▸ rfl

theorem bind {x : StateM (Store (Decoder Nat)) α} {y : StateT Shelves Option β}
    {k : α → StateM (Store (Decoder Nat)) γ} {l : β → StateT Shelves Option δ} (hxy : Shelved g x y)
    (hkl : ∀ a, Shelved h (k a) (l (g a))) : Shelved h (x >>= k) (y >>= l) := by
  intro s
  rw [StateT.run_bind, hxy s]
  exact hkl _ _

end Shelved

theorem define_shelved (link : Link) :
    Shelved (Handle.mk .decoders) (define link) (Shelves.define link.shelved) := by
  intro s
  change some _ = some _
  rw [shelves]
  simp only [Shelves.decoderPart, Registry.define_map]
  rfl

end Store

/-! ## Building and shelving -/

namespace Schema
open Store

/-- Not kept under a key. -/
def Unkeyed : Schema → Prop
  | make _ _ => False
  | _ => True

theorem mapEach_shelved {ss : List Schema}
    (h : ∀ s ∈ ss, Shelved Decoder.shelved (s.build .plain) (s.plain.mapRefs Shelves.define)) :
    Shelved (List.map Decoder.shelved) (buildEach .plain ss)
      (Decoder.mapEach Shelves.define (unfoldEach (Interpretation.plain.comap Link.shelved) ss)) := by
  induction ss with
  | nil => exact Shelved.pure_of_eq rfl
  | cons s rest ih =>
    obtain ⟨hHead, hRest⟩ := List.forall_mem_cons.mp h
    exact hHead.bind fun d => (ih hRest).bind fun ds => Shelved.pure_of_eq rfl

theorem mapNamed_shelved {ss : List (String × Schema)}
    (h : ∀ s ∈ ss.map (·.2), Shelved Decoder.shelved (s.build .plain) (s.plain.mapRefs Shelves.define)) :
    Shelved (Entries.mapValues Decoder.shelved) (buildNamed .plain ss)
      (Decoder.mapNamed Shelves.define (unfoldNamed (Interpretation.plain.comap Link.shelved) ss)) := by
  induction ss with
  | nil => exact Shelved.pure_of_eq rfl
  | cons e rest ih =>
    obtain ⟨hHead, hRest⟩ := List.forall_mem_cons.mp h
    exact hHead.bind fun d => (ih hRest).bind fun ds => Shelved.pure_of_eq rfl

theorem mapRefs_shelved {s : Schema} (h : ∀ t ∈ s.nodes, t.Unkeyed) :
    Shelved Decoder.shelved (s.build .plain) (s.plain.mapRefs Shelves.define) := by
  induction s using parts_induction with
  | step s ih =>
    have hParts : ∀ t ∈ s.parts, Shelved Decoder.shelved (t.build .plain) (t.plain.mapRefs Shelves.define) :=
      fun t ht => ih t ht fun u hu => h u (mem_nodes_of_part ht hu)
    cases s with
    | kind k => cases k <;> exact Shelved.pure_of_eq rfl
    | literal values => exact Shelved.pure_of_eq rfl
    | nullable or | record or | array or | refine or _ _ =>
      exact (hParts or List.mem_cons_self).bind fun d => Shelved.pure_of_eq rfl
    | object props =>
      refine (mapNamed_shelved hParts).bind fun ds => Shelved.pure_of_eq ?_
      exact congrArg Decoder.object (Decoder.mapNamed_relink _ ds)
    | partialObject props =>
      refine (mapNamed_shelved hParts).bind fun ds => Shelved.pure_of_eq ?_
      exact congrArg Decoder.partialObject (Decoder.mapNamed_relink _ ds)
    | tuple slots =>
      refine (mapEach_shelved hParts).bind fun ds => Shelved.pure_of_eq ?_
      exact congrArg Decoder.tuple (Decoder.mapEach_relink _ ds)
    | union members =>
      refine (mapEach_shelved hParts).bind fun ds => Shelved.pure_of_eq ?_
      exact congrArg Decoder.union (Decoder.mapEach_relink _ ds)
    | inter left right =>
      refine (hParts left List.mem_cons_self).bind fun l => ?_
      refine (hParts right (List.mem_cons_of_mem _ List.mem_cons_self)).bind fun r => ?_
      exact Shelved.pure_of_eq rfl
    | tagged tag members =>
      refine (mapNamed_shelved hParts).bind fun ds => Shelved.pure_of_eq ?_
      exact congrArg (Decoder.tagged tag) (Decoder.mapNamed_relink _ ds)
    | lazy link => exact (define_shelved link).bind fun handle => Shelved.pure_of_eq rfl
    | make key body => exact (h _ List.mem_cons_self).elim

end Schema

/-! ## Running -/

namespace Store
variable {definitions : Definitions}

theorem resolve_shelves (h : ∀ t ∈ Schema.nodesNamed definitions, t.Unkeyed) (handle : Nat) :
    Carries shelves Decoder.shelved (resolve .plain definitions handle)
      (Shelves.decoder definitions.plain ⟨.decoders, handle⟩) := by
  refine (Registry.force_carries registryPart_translates_shelves ?_ handle).bind ?_
  · intro target
    rw [Definitions.plain, Entries.get?_mapValues]
    cases hFound : definitions.get? target with
    | none => exact fun _ => rfl
    | some s =>
      apply Schema.mapRefs_shelved
      exact fun t ht => h t (Schema.mem_nodesNamed (Entries.mem_of_get? hFound) ht)
  · intro found
    cases found with
    | none => exact fun _ => rfl
    | some d => exact Carries.pure d

/-- A run in a store and a run on the shelves that hold the same give the same. -/
def shelving : Lockstep (StateT (Store (Decoder Nat)) Option) (StateT Shelves Option) where
  Rel x y := Carries shelves id x y
  pure a := Carries.pure a
  bind hx hk := hx.bind hk

theorem decode_shelves {bound : Nat}
    (hFollow : ∀ handle, shelving.Pointwise
      ((Resolver.ofDecoders (resolve .plain definitions)).followCheck bound handle)
      ((Shelves.resolver definitions.plain).followCheck bound ⟨.decoders, handle⟩)) (d : Decoder Nat) :
    shelving.Pointwise ((Resolver.ofDecoders (resolve .plain definitions)).decode bound d)
      ((Shelves.resolver definitions.plain).decode bound d.shelved) := by
  rw [Resolver.decode, Resolver.decode, Decoder.run_relink]
  refine d.run_lockstep shelving ?_ hFollow
  -- On both sides there is no guard behind a reference to a decoder.
  intro ref v
  cases bound <;> exact fun s => rfl

theorem followCheck_shelves (h : ∀ t ∈ Schema.nodesNamed definitions, t.Unkeyed) (bound handle : Nat) :
    shelving.Pointwise ((Resolver.ofDecoders (resolve .plain definitions)).followCheck bound handle)
      ((Shelves.resolver definitions.plain).followCheck bound ⟨.decoders, handle⟩) := by
  induction bound generalizing handle with
  | zero => exact fun v s => rfl
  | succ n ih => exact fun v => (resolve_shelves h handle).bind fun d => decode_shelves ih d v

end Store

/-! ## Readers -/

namespace Reader

def kept : Reader where
  kind k := .guarded (.kind k) k.expected
  refine := Decoder.restrict
  value := .num
  scalar _ := nofun
  run_kind test follow k v := by
    change Check.guarded (Test.kind k) k.expected v = _
    rw [Check.guarded_kind, Check.kind]
    cases v <;> rfl

def plain : Reader where
  kind k := if k = .number then .float else .kind k
  refine := Decoder.refine
  value n := .ofFloat n.toFloat
  scalar n := by
    unfold Value.ofFloat
    split <;> exact nofun
  run_kind test follow k v := by cases k <;> cases v <;> rfl

end Reader

/-- Decodes as usual, but to `f n` wherever a schema for numbers is given the number `n`. -/
def Interpretation.renumbering (f : Number → Value) : Interpretation Nat (Decoder Nat) :=
  { decoding with
    kind := fun k => if k = .number then (decoding.kind k).map (Value.renumber f) else decoding.kind k }

def Interpreter.renumbering (f : Number → Value) : Interpreter (Decoder Nat) (Decoded Value) :=
  { decoders with interpretation := .renumbering f }

def Reader.renumbering (f : Number → Value) (hScalar : ∀ n, (f n).kind ≠ .object) : Reader where
  kind := (Interpretation.renumbering f).kind
  refine := Decoder.restrict
  value := f
  scalar := hScalar
  run_kind test follow k v := by
    rcases eq_or_ne k .number with rfl | hOther
    · change Check.andThen (Check.guarded (Test.kind .number) Kind.number.expected) _ v = _
      rw [Check.guarded_kind, Check.andThen, Check.kind, pure_bind]
      cases v <;> rfl
    · change Decoder.run test follow (if k = .number then _ else _) v = _
      rw [if_neg hOther]
      change Check.guarded (Test.kind k) k.expected v = _
      rw [Check.guarded_kind, Check.kind]
      cases v with
      | num n =>
        have hKind : (Value.num n).kind ≠ k := hOther.symm
        rw [if_neg hKind, if_neg hKind]
      | _ => rfl

/-! ## Agreement -/

namespace Schema
variable {definitions : Definitions} {schema : Schema}

/-- A plain decoder is the reader that decodes every number to a float. -/
theorem decodePlainly_eq (h : ∀ t ∈ schema.nodes ++ nodesNamed definitions, t.Unkeyed) (bound : Nat) (v : Value) :
    schema.decodePlainly definitions bound v = Reader.plain.interpreter.fresh definitions bound schema v := by
  obtain ⟨hSchema, hDefinitions⟩ := List.forall_mem_append.mp h
  have hBuild : Carries Store.shelves Decoder.shelved (Store.build .plain schema)
      (schema.plain.mapRefs Shelves.define) := mapRefs_shelved hSchema
  have hAnswer : Carries Store.shelves id (Reader.plain.interpreter.answer definitions bound schema v) (do
      let d ← schema.plain.mapRefs Shelves.define
      (Shelves.resolver definitions.plain).decode bound d v) :=
    hBuild.bind fun d => Store.decode_shelves (Store.followCheck_shelves hDefinitions bound) d v
  have hRun := congrArg (Option.map Prod.fst) (hAnswer Store.empty)
  rw [Option.map_eq_map, Option.map_map] at hRun
  exact hRun

end Schema

namespace Interpreter
variable {definitions : Definitions} {schema : Schema}

/-- There is an outline that is filled with the numbers themselves where the interpreter decodes a value and with
their floats where a plain decoder does, and in which those numbers are marked that number schemas have decoded:
whatever these made of them would stand there. Failures are the same. -/
theorem plain_decoder_differs_in_numbers
    (h : ∀ t ∈ schema.nodes ++ Schema.nodesNamed definitions, t.Unrefined ∧ t.Unkeyed) (bound : Nat) (v : Value) :
    ∃ outcome : Option (Decoded Outline),
      decoders.fresh definitions bound schema v = outcome.map (Except.map (Outline.fill .num)) ∧
      schema.decodePlainly definitions bound v =
        outcome.map (Except.map (Outline.fill fun n => .ofFloat n.toFloat)) ∧
      ∀ f : Number → Value, (∀ n, (f n).kind ≠ .object) →
        (renumbering f).fresh definitions bound schema v = outcome.map (Except.map (Outline.fill f)) := by
  obtain ⟨outcome, hOutcome⟩ := Reader.fresh_outline (fun t ht => (h t ht).1) bound v
  refine ⟨outcome, ?_, ?_, fun f hf => hOutcome (.renumbering f hf)⟩
  · exact hOutcome .kept
  · rw [Schema.decodePlainly_eq fun t ht => (h t ht).2]
    exact hOutcome .plain

end Interpreter

/-! ## Crates

A crate is weighed, and so is whatever it holds. Its count is read twice, once as a number and once as one of some
fixed numbers, and the second reading is the one that stays. Its notes may be anything.
-/
namespace Crates

def counted : Schema := .object [("count", .kind .number), ("weight", .nullable (.kind .number))]

def filled : Schema := .partialObject
  [("count", .literal [.num (.int 1), .num (.int 2)]), ("notes", .kind .array),
    ("holds", .array (.union [.kind .number, .lazy ⟨"Crate", 0, "Crate"⟩]))]

def definitions : Definitions := [("Crate", .inter counted filled)]

def crate : Schema := .lazy ⟨"Crate", 0, "Crate"⟩

def loaded : Value := .obj
  [("holds", .arr [.num (.int 3), .obj [("count", .num (.int 1)), ("weight", .num (.int 5))]]),
    ("count", .num (.int 2)), ("notes", .arr [.num (.int 4)])]

def kept : Value := .obj
  [("count", .num (.int 2)), ("weight", .null),
    ("notes", .arr [.num (.int 4)]),
    ("holds", .arr [.num (.int 3), .obj [("count", .num (.int 1)), ("weight", .num (.int 5))]])]

def floated : Value := .obj
  [("count", .num (.int 2)), ("weight", .null),
    ("notes", .arr [.num (.int 4)]),
    ("holds", .arr [.num (.float (Float.ofInt 3)),
      .obj [("count", .num (.int 1)), ("weight", .num (.float (Float.ofInt 5)))]])]

theorem loaded_differs_in_numbers :
    (∀ t ∈ crate.nodes ++ Schema.nodesNamed definitions, t.Unrefined ∧ t.Unkeyed) ∧
      Interpreter.decoders.fresh definitions 2 crate loaded = some (.ok kept) ∧
      crate.decodePlainly definitions 2 loaded = some (.ok floated) ∧
      ∃ outcome : Option (Decoded Outline),
        Interpreter.decoders.fresh definitions 2 crate loaded = outcome.map (Except.map (Outline.fill .num)) ∧
        crate.decodePlainly definitions 2 loaded =
          outcome.map (Except.map (Outline.fill fun n => .ofFloat n.toFloat)) ∧
        ∀ f : Number → Value, (∀ n, (f n).kind ≠ .object) →
          (Interpreter.renumbering f).fresh definitions 2 crate loaded =
            outcome.map (Except.map (Outline.fill f)) := by
  have hNodes : ∀ t ∈ crate.nodes ++ Schema.nodesNamed definitions, t.Unrefined ∧ t.Unkeyed := by
    simp [crate, definitions, counted, filled, Schema.nodes, Schema.nodesEach, Schema.nodesNamed,
      Schema.Unrefined, Schema.Unkeyed]
  exact ⟨hNodes, rfl, rfl, Interpreter.plain_decoder_differs_in_numbers hNodes 2 loaded⟩

end Crates

end JsonShapes
