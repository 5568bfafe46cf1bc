import JsonShapes.Proofs.RoundTrip.Basic
import JsonShapes.Proofs.RoundTrip.Conditions

/-! # Decoding what was decoded

A codec that is made from a decoder goes there and back if its decoder accepts what it has decoded and leaves
it as it is. Where the conditions for that hold throughout a schema, decoding twice is decoding once.
-/
namespace JsonShapes
set_option autoImplicit false

namespace Schema
variable {definitions : Definitions}

/-- It remains to look at links. -/
theorem returns_of_links {bound : Nat}
    (hLinks : ∀ link, (lazy link).Steady definitions →
      Returns ((lazy link).decode definitions bound) ((lazy link).evaluate definitions))
    (s : Schema) (hs : s.Steady definitions) :
    Returns (s.decode definitions bound) (s.evaluate definitions) := by
  induction s using parts_induction with
  | step s ih =>
    have hPart : ∀ t ∈ s.parts, Settles (t.decode definitions bound) (t.evaluate definitions) :=
      fun t ht => settles (ih t ht (hs.part ht))
    have hHere := hs.here
    cases s with
    | kind k =>
      rw [decode_kind]
      exact .verbatim fun h => (Check.kind_eq_ok_iff.mp h).2
    | literal values => exact .verbatim fun h => (Check.literal_eq_ok_iff.mp h).2
    | nullable or =>
      rw [decode_nullable]
      exact (hPart or List.mem_cons_self).nullable.returns
    | object props =>
      rw [decode_object, evaluate_object]
      exact .object (Entries.related_map fun e he => hPart e.2 (List.mem_map_of_mem he)) hHere.agreeing
    | partialObject props =>
      rw [decode_partialObject, evaluate_partialObject]
      exact .partialObject (Entries.related_map fun e he => hPart e.2 (List.mem_map_of_mem he)) hHere.agreeing
    | record of =>
      rw [decode_record]
      exact .record (hPart of List.mem_cons_self)
    | array of =>
      rw [decode_array]
      exact .array (hPart of List.mem_cons_self)
    | tuple slots =>
      rw [decode_tuple, evaluate_tuple]
      exact .tuple (forall₂_map hPart)
    | union members =>
      rw [decode_union, evaluate_union]
      refine .union (forall₂_map hPart) fun before member after hMembers v w hKeys hRejected hRun => ?_
      -- The members that are tried before are those of a union of schemas.
      obtain ⟨earlier, rest, rfl, rfl, hRest⟩ := List.map_eq_append_iff.mp hMembers
      obtain ⟨s, later, rfl, rfl, rfl⟩ := List.map_eq_cons_iff.mp hRest
      rw [← evaluate_union]
      simp only [List.forall_mem_map, ← rejects_iff, ← decodes_iff] at hRejected hRun ⊢
      exact hHere earlier s later rfl v w hKeys hRejected hRun
    | inter left right =>
      rw [decode_inter]
      have hRight := hPart right (List.mem_cons_of_mem _ List.mem_cons_self)
      refine .inter (hPart left List.mem_cons_self) hRight fun v a b x y hKeys hA hB hX hY => ?_
      obtain ⟨w, hw, hSame⟩ := hHere v a b x y hKeys (decodes_iff.mpr hA) (decodes_iff.mpr hB)
        (decodes_iff.mpr hX) (decodes_iff.mpr hY)
      exact ⟨w, decodes_iff.mp hw, hSame⟩
    | tagged tag members =>
      rw [decode_tagged, evaluate_tagged]
      refine .tagged (Entries.related_map fun e he => hPart e.2 (List.mem_map_of_mem he)) ?_
      intro name c hMember v w hKeys hTag hRun
      rw [Entries.get?_ofList_map (fun _ s => evaluate definitions s)] at hMember
      obtain ⟨s, hs, rfl⟩ := Option.map_eq_some_iff.mp hMember
      exact hHere name s hs v w hKeys hTag (decodes_iff.mpr hRun)
    | refine of holds expected =>
      rw [decode_refine]
      refine .refine (hPart of List.mem_cons_self) expected fun v w hKeys hv hw => ?_
      exact hHere v w hKeys hv (decodes_iff.mpr hw)
    | lazy link => exact hLinks link hs
    | make key body => exact (hPart body List.mem_cons_self).returns

/-- The induction is on the bound of the first run; the second one may follow its links as far as it takes. -/
theorem returns (bound : Nat) (s : Schema) (hs : s.Steady definitions) :
    Returns (s.decode definitions bound) (s.evaluate definitions) := by
  induction bound generalizing s with
  | zero =>
    refine returns_of_links (fun link _ v w _ hDecoded => ?_) s hs
    cases hDecoded
  | succ n ih =>
    refine returns_of_links (fun link hLink v w hKeys hDecoded => ?_) s hs
    rw [decode_lazy_succ] at hDecoded
    obtain ⟨t, hFound, hDecoded⟩ := Option.bind_eq_some_iff.mp hDecoded
    rw [evaluate_lazy link hFound]
    exact Returns.lazy link.id (ih t (hLink.link hFound)) v w hKeys hDecoded

end Schema

/-- The codec of a steady schema decodes what it has encoded to what it had decoded before. -/
theorem decoder_codec_round_trip {definitions : Definitions} {A : Assignment} {schema : Schema}
    (hDefinitions : definitions.Follow A) (hSchema : schema.Follows A) (hSteady : schema.Steady definitions)
    {bound : Nat} {v a : Value} (hKeys : v.WellKeyed) (hFinite : v.Finite)
    (hDecoded : Interpreter.decoders.fresh definitions bound schema v = some (.ok a)) :
    ∃ enough w, (w == a) = true ∧
      ∀ n, enough ≤ n → schema.roundTrip definitions n v = some (.ok (a, .ok w)) := by
  rw [Interpreter.fresh_eq Interpreter.decoders_faithful hDefinitions hSchema] at hDecoded
  have hProjected := Schema.decode_projectedFrom hKeys hDecoded
  obtain ⟨w, hAgain, hSame⟩ := schema.returns bound hSteady v a hKeys hDecoded
  have hKeysAgain := (Schema.evaluate_projectedFrom hProjected.wellKeyed hAgain).wellKeyed
  obtain ⟨first, hFirst⟩ := Schema.decode_of_evaluate (Schema.evaluate_of_decode hDecoded)
  obtain ⟨second, hSecond⟩ := Schema.decode_of_evaluate hAgain
  refine ⟨max first second, w, ?_, fun n hn => ?_⟩
  · exact hSame.beq hKeysAgain hProjected.wellKeyed (hFinite.projection hProjected.projection)
  · rw [Schema.roundTrip_eq hDefinitions hSchema]
    exact Resolver.roundTrip_eq_ok (hFirst n (Nat.le_trans (Nat.le_max_left ..) hn)) rfl
      (hSecond n (Nat.le_trans (Nat.le_max_right ..) hn))

/-! ## A shape with everything in it

A union of a sum whose members keep their tag, intersections of properties with different names, and two
refinements of which one sees the number of properties.
-/
namespace Everything
open Schema

def nonNegative (v : Value) : Bool := (v.toFloat?.map fun x => decide (0.0 ≤ x)).getD false

def single (v : Value) : Bool := v.kind = .object && v.entries.length = 1

def tagA : Schema := object [("kind", literal [.str "a"]), ("b", nullable (kind .number))]

def tagB : Schema := inter (object [("kind", literal [.str "b"])])
  (partialObject [("c", kind .string), ("d", array (kind .boolean))])

def sum : Schema := tagged "kind" [("a", tagA), ("b", tagB)]

def scores : Schema := inter (object [("a", record (kind .number))])
  (partialObject [("e", tuple [kind .string, nullable (kind .boolean)])])

def amounts : Schema := array (refine (kind .number) nonNegative "NonNegative")

def onlyB : Schema := refine (object [("b", kind .number)]) single "OnlyB"

def schema : Schema := union [sum, scores, amounts, literal [.null], onlyB]

theorem sum_tagKept : TagKept [] "kind" [("a", tagA), ("b", tagB)] := by
  apply TagKept.of_keeps
  simp only [List.forall_mem_cons, List.not_mem_nil, false_imp_iff, implies_true, and_true]
  exact ⟨.declared (.object _) (by decide), .declared (.inter (.object _) (.partialObject _)) (by decide)⟩

/-- Members of one kind are told apart one by one. -/
theorem schema_separate : Separate [] [sum, scores, amounts, literal [.null], onlyB] := by
  apply Separate.of_pairwise
  simp only [List.pairwise_cons, List.forall_mem_cons, List.not_mem_nil, false_imp_iff, implies_true,
    List.Pairwise.nil, and_true]
  -- One group for each member that rejects, one goal for each member that comes after it.
  refine ⟨⟨?_, ?_, ?_, ?_⟩, ⟨?_, ?_, ?_⟩, ⟨?_, ?_⟩, ?_⟩
  · exact .of_tag (.inter (.object _) (.partialObject _)) (by decide)
  · exact .of_kinds 0 (by decide)
  · exact .of_kinds 0 (by decide)
  · exact .refine (.of_tag (.object _) (by decide)) _ _
  · exact .of_kinds 0 (by decide)
  · exact .of_kinds 0 (by decide)
  · intro v w _ hw
    obtain ⟨x, rfl⟩ := (decodes_refine.mp hw).1.alone
    exact ⟨0, _, rfl⟩
  · exact .of_kinds 0 (by decide)
  · exact .of_kinds 0 (by decide)
  · exact .of_kinds 0 (by decide)

theorem schema_steady : schema.Steady [] := by
  apply Throughout.of_nodes
  simp only [schema, sum, scores, amounts, onlyB, tagA, tagB, nodes, nodesEach, nodesNamed, List.cons_append,
    List.nil_append, List.append_nil, List.forall_mem_cons, List.not_mem_nil, false_imp_iff, implies_true,
    SteadyHere, true_and, and_true]
  refine ⟨schema_separate, sum_tagKept, .of_nodup (by decide), ?_, .of_nodup (by decide), .of_nodup (by decide),
    ?_, .of_nodup (by decide), .of_nodup (by decide), ?_, ?_, .of_nodup (by decide)⟩
  · exact .of_declares (.object _) (.partialObject _) (.of_nodup (by decide))
  · refine .of_confined (Declares.object _).confined (Declares.partialObject _).confined ?_
    simp [Entries.keys]
  · intro v w _ hv hw
    obtain ⟨_, rfl⟩ := decodes_kind.mp hw
    exact hv
  · intro v w _ _ hw
    obtain ⟨x, rfl⟩ := hw.alone
    rfl

def assignment : Assignment where
  target _ _ := ""
  body _ := schema

theorem schema_follows : schema.Follows assignment where
  links := by simp [schema, sum, scores, amounts, onlyB, tagA, tagB, links, linksEach, linksNamed]
  keyed := by simp [schema, sum, scores, amounts, onlyB, tagA, tagB, keyed, keyedEach, keyedNamed]

/-- The sum rejects this one, and what is left of it as well. -/
def input : Value := .obj [("kind", .str "c"), ("e", .arr [.str "s"]), ("a", .obj [("x", .num (.int 1))])]

def decoded : Value := .obj [("a", .obj [("x", .num (.int 1))]), ("e", .arr [.str "s", .null])]

theorem input_finite : input.Finite := by
  have hOne : (Number.int 1).Finite := by
    unfold Number.Finite
    decide
  simp [input, hOne]

theorem input_round_trip : Interpreter.decoders.fresh [] 0 schema input = some (.ok decoded) ∧
    ∃ enough w, (w == decoded) = true ∧
      ∀ n, enough ≤ n → schema.roundTrip [] n input = some (.ok (decoded, .ok w)) := by
  have hKeys : input.WellKeyed := by
    simp [input, Value.WellKeyed, Value.WellKeyedEntries, Value.WellKeyedItems, Entries.keys]
  have hDecoded : Interpreter.decoders.fresh [] 0 schema input = some (.ok decoded) := rfl
  exact ⟨hDecoded, decoder_codec_round_trip (List.forall_mem_nil _) schema_follows schema_steady hKeys
    input_finite hDecoded⟩

end Everything

/-! ## Shapes that stray

One for each condition, one where two links share a place and one where two schemas share a key.
-/
namespace Stray
open Schema

/-- The value is decoded, and what it is encoded to is rejected or decoded to something else. -/
def GoesAstray (definitions : Definitions) (s : Schema) (v : Value) : Prop :=
  ∃ bound a again, s.roundTrip definitions bound v = some (.ok (a, again)) ∧
    ∀ w, again = .ok w → (w == a) = false

def untagged : Schema := tagged "kind" [("a", object [("x", kind .string)])]

def hasX : Schema := refine (object []) (fun v => (v.get? "x").isSome) "HasX"

def greedy : Schema := union [partialObject [("a", kind .string)], object [("b", kind .string)]]

def overlapping : Schema := inter (object [("a", object [("p", kind .string)])])
  (object [("a", object [("q", kind .string)])])

def repeated : Schema := object [("a", object [("p", kind .string)]), ("a", object [("q", kind .string)])]

/-- The second link is the first one, whatever it says. -/
def misplaced : Schema := object [("x", lazy ⟨"L", 0, "Greedy"⟩),
  ("y", union [lazy ⟨"L", 0, "String"⟩, object [("b", kind .string)]])]

def definitions : Definitions := [("Greedy", partialObject [("a", kind .string)]), ("String", kind .string)]

theorem misplaced_steady : misplaced.Steady definitions := by
  apply Throughout.of_nodes
  simp only [misplaced, definitions, nodes, nodesEach, nodesNamed, List.cons_append, List.nil_append,
    List.append_nil, List.forall_mem_cons, List.not_mem_nil, false_imp_iff, implies_true, SteadyHere,
    true_and, and_true]
  exact ⟨.of_nodup (by decide), .of_kinds 1 (by decide), .of_nodup (by decide), .of_nodup (by decide)⟩

theorem round_trips_fail :
    GoesAstray [] untagged (.obj [("kind", .str "a"), ("x", .str "s")]) ∧
    GoesAstray [] hasX (.obj [("x", .null)]) ∧
    GoesAstray [] greedy (.obj [("a", .bool true), ("b", .str "s")]) ∧
    GoesAstray [] overlapping (.obj [("a", .obj [("p", .str "s"), ("q", .str "t")])]) ∧
    GoesAstray [] repeated (.obj [("a", .obj [("p", .str "s"), ("q", .str "t")])]) ∧
    misplaced.Steady definitions ∧
    GoesAstray definitions misplaced
      (.obj [("x", .obj []), ("y", .obj [("a", .bool true), ("b", .str "s")])]) := by
  refine ⟨⟨0, _, _, rfl, ?_⟩, ⟨0, _, _, rfl, ?_⟩, ⟨0, _, _, rfl, ?_⟩, ⟨0, _, _, rfl, ?_⟩, ⟨0, _, _, rfl, ?_⟩,
    misplaced_steady, ⟨1, _, _, rfl, ?_⟩⟩
  all_goals
    intro w hw
    cases hw
  · rfl
  · rfl

def key : SchemaKey := ⟨"Shape", none⟩

/-- The second schema that is made is the first one, since it has the same key. -/
def mistaken : Schema := object [("x", make (some key) (partialObject [("a", kind .string)])),
  ("y", union [make (some key) (kind .string), object [("b", kind .string)]])]

theorem mistaken_steady : mistaken.Steady [] := by
  apply Throughout.of_nodes
  simp only [mistaken, nodes, nodesEach, nodesNamed, List.cons_append, List.nil_append, List.append_nil,
    List.forall_mem_cons, List.not_mem_nil, false_imp_iff, implies_true, SteadyHere, true_and, and_true]
  exact ⟨.of_nodup (by decide), .of_nodup (by decide), .of_kinds 0 (by decide), .of_nodup (by decide)⟩

/-- No links are needed if two schemas share a key. -/
theorem shared_key_strays : mistaken.Steady [] ∧ mistaken.links = [] ∧
    GoesAstray [] mistaken (.obj [("x", .obj []), ("y", .obj [("a", .bool true), ("b", .str "s")])]) := by
  refine ⟨mistaken_steady, rfl, 0, _, _, rfl, ?_⟩
  intro w hw
  cases hw
  rfl

end Stray

end JsonShapes
