import JsonShapes.Proofs.RoundTrip.Codecs
import JsonShapes.Proofs.Shelving.Settled
import JsonShapes.Value.Predicates

/-! # The law of codecs

Shelving a lawful codec gives a lawful codec, both halves of a reference being led to the same handle. So all
codecs on the shelves are lawful as soon as their blueprints are, and what one of them has decoded it encodes
to something that it decodes to the same again. Nothing has to be shelved for that which the first run has not
shelved already.
-/
namespace JsonShapes
set_option autoImplicit false

namespace Codec
variable {ρ σ : Type} (f : ρ → σ)

/-! ## Other references -/

theorem mapEach_decoders (cs : List (Codec ρ)) : Decoder.mapEach (m := Id) f (cs.map (·.decoder)) =
    (cs.map (relink f)).map (·.decoder) := by
  rw [Decoder.mapEach_relink, List.map_map, List.map_map]
  rfl

theorem mapEach_encoders (cs : List (Codec ρ)) : Encoder.mapEach (m := Id) f (cs.map (·.encoder)) =
    (cs.map (relink f)).map (·.encoder) := by
  induction cs with
  | nil => rfl
  | cons _ _ ih => exact congrArg (List.cons _) ih

theorem mapNamed_decoders (named : List (String × Codec ρ)) : Decoder.mapNamed (m := Id) f (decoders named) =
    decoders (named.map fun p => (p.1, relink f p.2)) := by
  rw [Decoder.mapNamed_relink, Entries.mapValues, decoders, decoders, List.map_map, List.map_map]
  rfl

theorem mapNamed_encoders (named : List (String × Codec ρ)) : Encoder.mapNamed (m := Id) f (encoders named) =
    encoders (named.map fun p => (p.1, relink f p.2)) := by
  induction named with
  | nil => rfl
  | cons _ _ ih => exact congrArg (List.cons _) ih

theorem relink_tuple (slots : List (Codec ρ)) : (tuple slots).relink f = tuple (slots.map (relink f)) :=
  congrArg₂ (fun d e => (⟨.tuple d, .tuple e⟩ : Codec σ)) (mapEach_decoders f slots) (mapEach_encoders f slots)

theorem relink_object (props : List (String × Codec ρ)) :
    (object props).relink f = object (props.map fun p => (p.1, relink f p.2)) :=
  congrArg₂ (fun d e => (⟨.object d, .object e⟩ : Codec σ)) (mapNamed_decoders f props)
    (mapNamed_encoders f props)

theorem relink_partialObject (props : List (String × Codec ρ)) :
    (partialObject props).relink f = partialObject (props.map fun p => (p.1, relink f p.2)) :=
  congrArg₂ (fun d e => (⟨.partialObject d, .partialObject e⟩ : Codec σ)) (mapNamed_decoders f props)
    (mapNamed_encoders f props)

theorem relink_tagged (tag : String) (members : List (String × Codec ρ)) :
    (tagged tag members).relink f = tagged tag (members.map fun p => (p.1, relink f p.2)) :=
  congrArg₂ (fun d e => (⟨.tagged tag d, .tagged tag e⟩ : Codec σ)) (mapNamed_decoders f members)
    (mapNamed_encoders f members)

def Fields.relink : Fields ρ → Fields σ
  | object props => object (props.map fun p => (p.1, Codec.relink f p.2))
  | partialObject props => partialObject (props.map fun p => (p.1, Codec.relink f p.2))
  | inter left right => inter left.relink right.relink

theorem Fields.props_relink (fs : Fields ρ) :
    (fs.relink f).props = fs.props.map fun p => (p.1, Codec.relink f p.2) := by
  induction fs with
  | object _ | partialObject _ => rfl
  | inter left right ihLeft ihRight => rw [relink, props, props, ihLeft, ihRight, List.map_append]

theorem Fields.codec_relink (fs : Fields ρ) : (fs.relink f).codec = fs.codec.relink f := by
  induction fs with
  | object props => exact (relink_object f props).symm
  | partialObject props => exact (relink_partialObject f props).symm
  | inter left right ihLeft ihRight => exact congrArg₂ Codec.inter ihLeft ihRight

variable {f}

theorem Lawful.relink {Shared : ρ → Prop} {Shared' : σ → Prop} (hf : ∀ ref, Shared ref → Shared' (f ref))
    {c : Codec ρ} (hc : c.Lawful Shared) : (c.relink f).Lawful Shared' := by
  induction hc with
  | string => exact .string
  | number => exact .number
  | boolean => exact .boolean
  | anyArray => exact .anyArray
  | anyObject => exact .anyObject
  | literal values => exact .literal values
  | nullable _ ih => exact .nullable ih
  | record _ ih => exact .record ih
  | array _ ih => exact .array ih
  | tuple _ ih =>
    rw [relink_tuple]
    exact .tuple (List.forall_mem_map.mpr ih)
  | @fields fs hNames _ ih =>
    rw [← fs.codec_relink]
    refine .fields ?_ ?_
    · rw [fs.props_relink, keys_map]
      exact hNames
    · rw [fs.props_relink]
      exact List.forall_mem_map.mpr ih
  | @tagged tag members hMembers _ ih =>
    have hRelinked : (Codec.tagged tag (members.map fun e => (e.1, object e.2))).relink f = Codec.tagged tag
        ((members.map fun e => (e.1, e.2.map fun p => (p.1, Codec.relink f p.2))).map
          fun e => (e.1, object e.2)) := by
      rw [relink_tagged, List.map_map, List.map_map]
      exact congrArg (Codec.tagged tag) (List.map_congr_left fun e _ => Prod.ext rfl (relink_object f e.2))
    rw [hRelinked]
    refine .tagged (List.forall_mem_map.mpr fun e he => ⟨?_, ?_⟩) (List.forall_mem_map.mpr fun e he => ?_)
    · rw [keys_map]
      exact (hMembers e he).1
    · exact List.mem_map_of_mem (hMembers e he).2
    · exact List.forall_mem_map.mpr (ih e he)
  | refine holds expected _ ih => exact .refine holds expected ih
  | mapFailures g _ ih => exact .mapFailures g ih
  | lazy hRef => exact .lazy (hf _ hRef)

end Codec

/-! ## Following references -/

/-- The induction is on the bound, which is the same on the way back. -/
theorem Resolver.follow_retracts {ρ : Type} {q : Resolver Option ρ} {Shared : ρ → Prop}
    (hShared : ∀ ref d, Shared ref → q.decoder ref = some d →
      ∃ c : Codec ρ, c.Lawful Shared ∧ c.decoder = d ∧ q.encoder ref = some c.encoder)
    (bound : Nat) (ref : ρ) (hRef : Shared ref) :
    Retracts (q.followCheck bound ref) (q.followTransform bound ref) := by
  induction bound generalizing ref with
  | zero =>
    intro v a _ hDecoded
    cases hDecoded
  | succ n ih =>
    intro v a hFinite hDecoded
    obtain ⟨d, hFound, hRun⟩ := Option.bind_eq_some_iff.mp hDecoded
    obtain ⟨c, hc, rfl, hEncoder⟩ := hShared ref d hRef hFound
    obtain ⟨hKind, e, hEncoded, hKind', hAgain⟩ := hc.retracts ih v a hFinite hRun
    refine ⟨hKind, e, ?_, hKind', ?_⟩
    · exact Option.bind_eq_some_iff.mpr ⟨_, hEncoder, hEncoded⟩
    · exact Option.bind_eq_some_iff.mpr ⟨_, hFound, hAgain⟩

def ShelfLink.Shared (link : ShelfLink) : Prop := link.shelf = .codecs

def Handle.Shared (h : Handle) : Prop := h.shelf = .codecs

def Blueprints.Lawful (b : Blueprints) : Prop := ∀ e ∈ b.codecs, e.2.Lawful ShelfLink.Shared

namespace Shelves

/-- Every codec that has been shelved is lawful. -/
def Lawful (s : Shelves) : Prop := ∀ {index c}, s.codecs.settled? index = some c → c.Lawful Handle.Shared

theorem lawful_empty : empty.Lawful := fun h => nomatch h

theorem Lawful.grown {s s' : Shelves} (hs : s.Lawful) (h : s.Grows (.ofCodecs (·.Lawful Handle.Shared)) s') :
    s'.Lawful := fun hSettled => (h.codecs.fresh hSettled).elim hs fun hLawful => hLawful

theorem settled_retracts {t : Shelves} (ht : t.Lawful) (bound : Nat) {c : Codec Handle}
    (hc : c.Lawful Handle.Shared) :
    Retracts (t.settled.decode bound c.decoder) (t.settled.encode bound c.encoder) := by
  refine hc.retracts (Resolver.follow_retracts (fun h d hShared hFound => ?_) bound)
  obtain ⟨shelf, index⟩ := h
  cases hShared
  obtain ⟨c, hSettled, rfl⟩ := Option.map_eq_some_iff.mp hFound
  exact ⟨c, ht hSettled, rfl, congrArg (Option.map _) hSettled⟩

/-- A codec that has decoded something can encode it and decode it again on the shelves as they are then. -/
theorem codec_round_trip {b : Blueprints} (hBlueprints : b.Lawful) {s : Shelves} (hShelves : s.Lawful)
    {blueprint : Codec ShelfLink} (hBlueprint : blueprint.Lawful ShelfLink.Shared) {c : Codec Handle}
    {s' : Shelves} (hShelved : (blueprint.mapRefs define).run s = some (c, s')) {bound : Nat} {v a : Value}
    (hFinite : v.Finite) {t : Shelves}
    (hDecoded : ((resolver b).decode bound c.decoder v).run s' = some (.ok a, t)) :
    ∃ e, ((resolver b).encode bound c.encoder a).run t = some (e, t) ∧
      ((resolver b).decode bound c.decoder e).run t = some (.ok a, t) := by
  obtain ⟨hGrows, rfl⟩ := mapRefs_spec hShelved
  have hCodec : (blueprint.relink s'.place).Lawful Handle.Shared :=
    hBlueprint.relink (f := s'.place) fun _ hLink => hLink
  have hReplay := resolver_replaying (Q := (·.Lawful Handle.Shared))
    (fun e he s => (hBlueprints e he).relink (f := s.place) fun _ hLink => hLink) t
  obtain ⟨hGrows', hSettled⟩ := hReplay.decode bound _ v hDecoded
  have hLawful : t.Lawful := hShelves.grown (hGrows.of_none.trans hGrows')
  obtain ⟨_, e, hEncoded, _, hAgain⟩ := settled_retracts hLawful bound hCodec v a hFinite (hSettled (.refl t))
  have hRest := resolver_resting b t
  exact ⟨e, hRest.encode bound _ a hEncoded, hRest.decode bound _ e hAgain⟩

end Shelves

/-! ## Ledgers

Entries that are told apart by a tag, one after the other, each with what may be said about it.
-/
namespace Ledgers

def link : ShelfLink := ⟨.codecs, "Ledger", 0, "Ledger"⟩

def amount : Codec ShelfLink := Codec.number.refine (Value.isAbove 0) "Positive"

def members : List (String × List (String × Codec ShelfLink)) :=
  [("add", [("op", .literal [.str "add"]), ("by", amount)]), ("clear", [("op", .literal [.str "clear"])])]

def entry : Codec ShelfLink := .tagged "op" (members.map fun e => (e.1, .object e.2))

def fields : Codec.Fields ShelfLink :=
  .inter (.object [("entry", entry), ("rest", .nullable (.lazy "Ledger" link))])
    (.partialObject [("notes", .array (Codec.string.withMessage fun _ _ => "a note is a text")),
      ("span", .tuple [.string, .nullable .boolean])])

def blueprints : Blueprints := ⟨[], [], [], [("Ledger", fields.codec)]⟩

def input : Value := .obj
  [("span", .arr [.str "s"]), ("rest", .obj [("entry", .obj [("op", .str "clear")])]),
    ("entry", .obj [("by", .num (.int 2)), ("at", .null), ("op", .str "add")])]

def decoded : Value := .obj
  [("entry", .obj [("op", .str "add"), ("by", .num (.float (Float.ofInt 2)))]),
    ("rest", .obj [("entry", .obj [("op", .str "clear")]), ("rest", .null)]),
    ("span", .arr [.str "s", .null])]

theorem entry_lawful : entry.Lawful ShelfLink.Shared := by
  apply Codec.Lawful.tagged
  · intro e he
    simp only [members, List.mem_cons, List.not_mem_nil, or_false] at he
    rcases he with rfl | rfl
    · exact ⟨by decide, List.mem_cons_self⟩
    · exact ⟨by decide, List.mem_cons_self⟩
  · simp only [members, List.forall_mem_cons, List.not_mem_nil, false_imp_iff, implies_true, and_true]
    exact ⟨⟨.literal _, .refine _ _ .number⟩, .literal _⟩

theorem fields_lawful : fields.codec.Lawful ShelfLink.Shared := by
  apply Codec.Lawful.fields
  · decide
  · simp only [fields, Codec.Fields.props, List.cons_append, List.nil_append, List.forall_mem_cons,
      List.not_mem_nil, false_imp_iff, implies_true, and_true]
    refine ⟨entry_lawful, .nullable (.lazy rfl), .array (.withMessage .string _), .tuple ?_⟩
    simp only [List.forall_mem_cons, List.not_mem_nil, false_imp_iff, implies_true, and_true]
    exact ⟨.string, .nullable .boolean⟩

theorem input_finite : input.Finite := by
  have hTwo : (Number.int 2).Finite := by
    unfold Number.Finite
    decide
  simp [input, hTwo]

theorem input_restored : ∃ c s t,
    ((Codec.lazy "Ledger" link).mapRefs Shelves.define).run .empty = some (c, s) ∧
    ((Shelves.resolver blueprints).decode 2 c.decoder input).run s = some (.ok decoded, t) ∧
    ∃ e, ((Shelves.resolver blueprints).encode 2 c.encoder decoded).run t = some (e, t) ∧
      ((Shelves.resolver blueprints).decode 2 c.decoder e).run t = some (.ok decoded, t) := by
  have hBlueprints : blueprints.Lawful := by
    intro e he
    cases List.mem_singleton.mp he
    exact fields_lawful
  have hBlueprint : (Codec.lazy "Ledger" link).Lawful ShelfLink.Shared := .lazy rfl
  refine ⟨_, _, _, rfl, rfl, ?_⟩
  exact Shelves.codec_round_trip hBlueprints Shelves.lawful_empty hBlueprint rfl input_finite rfl

end Ledgers

end JsonShapes
