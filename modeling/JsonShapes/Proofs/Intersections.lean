import JsonShapes.Proofs.Projection
import JsonShapes.Proofs.Reports.Rejections
import JsonShapes.Proofs.Usage

/-! # Intersections of intersections

Merging is not associative: an object between two other values is lost or kept, depending on which two are merged
first. What one value is decoded to is of one kind though, whatever it is decoded with, and the entries of an
object merge the same way however they are bracketed. So it does not matter how intersections are nested.
-/
namespace JsonShapes
set_option autoImplicit false

theorem Value.merge_assoc {a b c : Value} (hMid : b.WellKeyed) (hLeft : a.kind = b.kind) (hRight : b.kind = c.kind) :
    (a.merge b).merge c = a.merge (b.merge c) := by
  by_cases hKind : b.kind = .object
  · obtain ⟨A, rfl⟩ := exists_entries_of_kind (hLeft.trans hKind)
    obtain ⟨B, rfl⟩ := exists_entries_of_kind hKind
    obtain ⟨C, rfl⟩ := exists_entries_of_kind (hRight.symm.trans hKind)
    exact congrArg obj (Entries.merge_assoc hMid.1 A C)
  · have hOther : c.kind ≠ .object := fun h => hKind (hRight.trans h)
    rw [merge_eq_right (.inr hOther), merge_eq_right (.inl hKind), merge_eq_right (.inr hOther)]

namespace Decoded

/-- Both results give the same value, or both fail, with the same failures one after the other and so with the
same rejections. -/
inductive Coincide : Decoded Value → Decoded Value → Prop
  | ok (w : Value) : Coincide (.ok w) (.ok w)
  | error {e e' : Failures String} : e.toList = e'.toList → e.rejections = e'.rejections →
    Coincide (.error e) (.error e')

theorem Coincide.of_toList {e e' : Failures String} (h : e.toList = e'.toList) : Coincide (.error e) (.error e') := by
  refine .error h ?_
  rw [Failures.rejections, Failures.rejections, Failures.rejectionsAt_eq_flatMap, h,
    ← Failures.rejectionsAt_eq_flatMap]

/-- What an intersection makes of the results on both sides. -/
def meet (l r : Decoded Value) : Decoded Value := (Checked.both l r).map fun both => both.1.merge both.2

theorem meet_assoc {v : Value} {a b c : Decoded Value} (ha : a.ProjectsFrom v) (hb : b.ProjectsFrom v)
    (hc : c.ProjectsFrom v) : ((a.meet b).meet c).Coincide (a.meet (b.meet c)) := by
  cases a with
  | ok x =>
    cases b with
    | ok y =>
      cases c with
      | ok z =>
        have hx := (ha x rfl).projection.kind_eq
        have hy := hb y rfl
        have hz := (hc z rfl).projection.kind_eq
        have hMerged : (x.merge y).merge z = x.merge (y.merge z) :=
          Value.merge_assoc hy.wellKeyed (hx.trans hy.projection.kind_eq.symm) (hy.projection.kind_eq.trans hz.symm)
        change Coincide (.ok ((x.merge y).merge z)) (.ok (x.merge (y.merge z)))
        rw [hMerged]
        exact .ok _
      | error e => exact .of_toList rfl
    | error e => cases c <;> exact .of_toList rfl
  | error e =>
    cases b with
    | ok y => cases c <;> exact .of_toList rfl
    | error e' =>
      cases c with
      | ok z => exact .of_toList rfl
      | error e'' => exact .of_toList (List.append_assoc e.toList e'.toList e''.toList)

end Decoded

namespace Interpreter

section
variable {definitions : Definitions} {s : Store (Decoder Nat)} {shapes : List (Decoder Nat)}

theorem build_projecting (schema : Schema) :
    (Store.running Decoder.Projecting).Holds (Store.build decoders.interpretation schema) Decoder.Projecting :=
  Store.build_promise (schema.build_closed Interpretation.decoding_projecting)

theorem run_projecting {d : Decoder Nat} (hd : d.Projecting) (bound : Nat) {v : Value} (hKeys : v.WellKeyed) :
    (Store.running Decoder.Projecting).Holds
      (decoders.perform definitions bound d v) (Decoded.ProjectsFrom v) :=
  hd _ _ _ (follow_projecting bound) v hKeys

theorem Reached.projecting {schemas : Schema → Prop} (h : decoders.Reached definitions schemas s shapes) :
    s.All Decoder.Projecting ∧ ∀ d ∈ shapes, d.Projecting := by
  refine h.all (fun schema _ => schema.build_closed Interpretation.decoding_projecting) ?_
  intro bound d v hd hKeys s hAll result t hRun
  exact ⟨(run_projecting hd bound hKeys s hAll result t hRun).1, trivial⟩

/-- What a value is decoded to by three schemas that are read together: each is built before any of them is run. -/
def decodeThrice (definitions : Definitions) (bound : Nat) (a b c : Schema) (v : Value) :
    StateT (Store (Decoder Nat)) Option (Decoded Value × Decoded Value × Decoded Value) := do
  let da ← Store.build decoders.interpretation a
  let db ← Store.build decoders.interpretation b
  let dc ← Store.build decoders.interpretation c
  let run := decoders.run (Store.resolve decoders.interpretation definitions) bound
  return (← run da v, ← run db v, ← run dc v)

theorem build_inter (l r : Schema) :
    Store.build decoders.interpretation (.inter l r) = do
      let dl ← Store.build decoders.interpretation l
      let dr ← Store.build decoders.interpretation r
      return Decoder.inter dl dr := rfl

theorem run_inter (resolve : Nat → StateT (Store (Decoder Nat)) Option (Decoder Nat)) (bound : Nat)
    (l r : Decoder Nat) (v : Value) :
    decoders.run resolve bound (.inter l r) v = do
      let rl ← decoders.run resolve bound l v
      let rr ← decoders.run resolve bound r v
      return rl.meet rr := by
  change (Decoder.inter l r).run _ _ v = _
  rw [Decoder.run]
  rfl

theorem answer_leftward (bound : Nat) (a b c : Schema) (v : Value) :
    decoders.answer definitions bound (.inter (.inter a b) c) v =
      (fun r => (r.1.meet r.2.1).meet r.2.2) <$> decodeThrice definitions bound a b c v := by
  simp only [answer, build_inter, run_inter, decodeThrice, map_eq_pure_bind, bind_assoc, pure_bind]

theorem answer_rightward (bound : Nat) (a b c : Schema) (v : Value) :
    decoders.answer definitions bound (.inter a (.inter b c)) v =
      (fun r => r.1.meet (r.2.1.meet r.2.2)) <$> decodeThrice definitions bound a b c v := by
  simp only [answer, build_inter, run_inter, decodeThrice, map_eq_pure_bind, bind_assoc, pure_bind]

theorem decodeThrice_projecting (bound : Nat) (a b c : Schema) {v : Value} (hKeys : v.WellKeyed) :
    (Store.running Decoder.Projecting).Holds (decodeThrice definitions bound a b c v) fun r =>
      r.1.ProjectsFrom v ∧ r.2.1.ProjectsFrom v ∧ r.2.2.ProjectsFrom v := by
  let E := Store.running (ρ := Decoder Nat) Decoder.Projecting
  apply E.bind (build_projecting a)
  intro da ha
  apply E.bind (build_projecting b)
  intro db hb
  apply E.bind (build_projecting c)
  intro dc hc
  apply E.bind (run_projecting ha bound hKeys)
  intro ra hra
  apply E.bind (run_projecting hb bound hKeys)
  intro rb hrb
  apply E.bind (run_projecting hc bound hKeys)
  intro rc hrc
  exact E.pure ⟨hra, hrb, hrc⟩

/-- However an intersection of three schemas is nested, a value is decoded to the same by it, or rejected with the
same failures in the same order, or neither comes to an end. What the interpreter has done before is the same for
both, and so is what it has in its store afterwards. -/
theorem inter_associative (hReached : decoders.Reached definitions (fun _ => True) s shapes) (bound : Nat)
    (a b c : Schema) {v : Value} (hKeys : v.WellKeyed) :
    Option.Rel (fun p q => p.1.Coincide q.1 ∧ p.2 = q.2)
      ((decoders.answer definitions bound (.inter (.inter a b) c) v).run s)
      ((decoders.answer definitions bound (.inter a (.inter b c)) v).run s) := by
  rw [answer_leftward, answer_rightward, StateT.run_map, StateT.run_map]
  cases hRun : (decodeThrice definitions bound a b c v).run s with
  | none => exact .none
  | some p =>
    obtain ⟨⟨ra, rb, rc⟩, t⟩ := p
    obtain ⟨_, ha, hb, hc⟩ := decodeThrice_projecting bound a b c hKeys s hReached.projecting.1 _ _ hRun
    exact .some ⟨Decoded.meet_assoc ha hb hc, rfl⟩

end

end Interpreter

namespace Badges

def definitions : Definitions := [("Holder", .object [("name", .kind .string)])]

def numbered : Schema := .object [("number", .kind .number)]

def held : Schema := .partialObject [("holder", .lazy ⟨"Holder", 0, "Holder"⟩)]

/-- Gives every property as the badge has it, and in that order. -/
def worn : Schema := .record (.union [.kind .object, .kind .number])

def badge : Value := .obj [("holder", .obj [("name", .str "Ada"), ("age", .num (.int 36))]), ("number", .num (.int 7))]

/-- Of the three, all but the second reject something in it. -/
def blank : Value := .obj [("number", .null), ("holder", .null), ("valid", .bool true)]

def issued : Value := .obj [("number", .num (.int 7)), ("holder", .obj [("name", .str "Ada")])]

theorem badge_wellKeyed : badge.WellKeyed := ⟨by decide, ⟨by decide, trivial, trivial, trivial⟩, trivial, trivial⟩

theorem blank_wellKeyed : blank.WellKeyed := ⟨by decide, trivial, trivial, trivial, trivial⟩

/-- What is read from the second of them, and the store that this leaves. -/
def holder : Decoder Nat := .partialObject [("holder", .lazy "Holder" 0)]

def stocked : Store (Decoder Nat) := ((held.build .decoding).run .empty).2

/-- All are read and run in a store in which a holder has been decoded before. -/
theorem badges_decoded_either_way :
    ∃ s, Interpreter.decoders.Reached definitions (fun _ => True) s [holder] ∧ badge.WellKeyed ∧ blank.WellKeyed ∧
      (∃ t, (Interpreter.decoders.answer definitions 1 (.inter (.inter numbered worn) held) badge).run s =
          some (.ok issued, t) ∧
        (Interpreter.decoders.answer definitions 1 (.inter numbered (.inter worn held)) badge).run s =
          some (.ok issued, t)) ∧
      ∃ (e e' : Failures String) (t : Store (Decoder Nat)),
        (Interpreter.decoders.answer definitions 1 (.inter (.inter numbered worn) held) blank).run s =
          some (.error e, t) ∧
        (Interpreter.decoders.answer definitions 1 (.inter numbered (.inter worn held)) blank).run s =
          some (.error e', t) ∧
        e.toList = e'.toList ∧ e.rejections = e'.rejections := by
  have hBuild : (Store.build Interpreter.decoders.interpretation held).run .empty = some (holder, stocked) := rfl
  have hRun : (Interpreter.decoders.perform definitions 1 holder badge).run stocked = some (_, _) := rfl
  have hReached : Interpreter.decoders.Reached definitions (fun _ => True) _ [holder] :=
    .tail (.single (.build trivial hBuild)) (.run List.mem_cons_self badge_wellKeyed hRun)
  have hBlank := Interpreter.inter_associative hReached 1 numbered worn held blank_wellKeyed
  refine ⟨_, hReached, badge_wellKeyed, blank_wellKeyed, ⟨_, rfl, rfl⟩, _, _, _, rfl, rfl, ?_⟩
  change Option.Rel _ (some _) (some _) at hBlank
  cases hBlank with
  | some h =>
    cases h.1 with
    | error hList hRejections => exact ⟨hList, hRejections⟩

end Badges

end JsonShapes
