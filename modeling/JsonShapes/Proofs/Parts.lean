import JsonShapes.Proofs.Entries
import JsonShapes.Schema.Basic
import Mathlib.Logic.Relation

/-! # What values and schemas are made of

Induction over a value or a schema goes through its parts, whatever lists they stand in. A link has no
parts, but it leads to the schema that it names: what is met on the way from a schema is all that its
decoder and its encoder may ever run.
-/
namespace JsonShapes
set_option autoImplicit false

theorem sizeOf_named_lt {α : Type} [SizeOf α] {named : List (String × α)} {a : α}
    (h : a ∈ named.map (·.2)) : sizeOf a < sizeOf named := by
  obtain ⟨p, hp, rfl⟩ := List.mem_map.mp h
  have hMem := List.sizeOf_lt_of_mem hp
  have hSize : sizeOf p = 1 + sizeOf p.1 + sizeOf p.2 := rfl
  omega

namespace Value

def parts : Value → List Value
  | arr items => items
  | obj entries => entries.map (·.2)
  | _ => []

theorem sizeOf_part_lt {v w : Value} (h : w ∈ v.parts) : sizeOf w < sizeOf v := by
  cases v with
  | arr items =>
    have hLt : sizeOf w < sizeOf items := List.sizeOf_lt_of_mem h
    simp only [arr.sizeOf_spec]
    omega
  | obj entries =>
    have hLt := sizeOf_named_lt h
    simp only [obj.sizeOf_spec]
    omega
  | _ => cases h

theorem parts_induction {motive : Value → Prop}
    (step : ∀ v, (∀ w ∈ v.parts, motive w) → motive v) (v : Value) : motive v :=
  step v fun w _ => parts_induction step w
termination_by sizeOf v
decreasing_by exact sizeOf_part_lt ‹_›

theorem depth_le_of_mem_items {items : List Value} {w : Value} (h : w ∈ items) : w.depth ≤ depthItems items := by
  induction items with
  | nil => cases h
  | cons v rest ih =>
    rw [depthItems]
    rcases List.mem_cons.mp h with rfl | h
    · exact Nat.le_max_left ..
    · exact Nat.le_trans (ih h) (Nat.le_max_right ..)

theorem depth_le_of_mem_entries {entries : List (String × Value)} {e : String × Value} (h : e ∈ entries) :
    e.2.depth ≤ depthEntries entries := by
  induction entries with
  | nil => cases h
  | cons p rest ih =>
    obtain ⟨name, v⟩ := p
    rw [depthEntries]
    rcases List.mem_cons.mp h with rfl | h
    · exact Nat.le_max_left ..
    · exact Nat.le_trans (ih h) (Nat.le_max_right ..)

theorem depth_part_lt {v w : Value} (h : w ∈ v.parts) : w.depth < v.depth := by
  cases v with
  | arr items => exact Nat.lt_succ_of_le (depth_le_of_mem_items h)
  | obj entries =>
    obtain ⟨e, he, rfl⟩ := List.mem_map.mp h
    exact Nat.lt_succ_of_le (depth_le_of_mem_entries he)
  | _ => cases h

theorem mem_parts_of_get? {entries : List (String × Value)} {name : String} {w : Value}
    (h : Entries.get? entries name = some w) : w ∈ (obj entries).parts :=
  List.mem_map_of_mem (Entries.mem_of_get? h)

/-- Null stands for a property that is missing, and it is less deep than any object. -/
theorem depth_property_lt (entries : List (String × Value)) (name : String) :
    ((Entries.get? entries name).getD null).depth < (obj entries).depth := by
  cases hFound : Entries.get? entries name with
  | none => exact Nat.succ_pos _
  | some raw => exact depth_part_lt (mem_parts_of_get? hFound)

theorem depth_element_lt (items : List Value) (position : Nat) :
    (items[position]?.getD null).depth < (arr items).depth := by
  cases hFound : items[position]? with
  | none => exact Nat.succ_pos _
  | some raw => exact depth_part_lt (v := arr items) (List.mem_of_getElem? hFound)

end Value

namespace Schema

def parts : Schema → List Schema
  | kind _ | literal _ | lazy _ => []
  | nullable s | record s | array s | refine s _ _ | make _ s => [s]
  | object props | partialObject props | tagged _ props => props.map (·.2)
  | tuple items | union items => items
  | inter left right => [left, right]

/-- Not a refinement. -/
def Unrefined : Schema → Prop
  | refine _ _ _ => False
  | _ => True

theorem sizeOf_part_lt {s t : Schema} (h : t ∈ s.parts) : sizeOf t < sizeOf s := by
  cases s with
  | kind _ | literal _ | lazy _ => cases h
  | nullable s | record s | array s | refine s _ _ | make _ s =>
    cases List.mem_singleton.mp h
    simp only [nullable.sizeOf_spec, record.sizeOf_spec, array.sizeOf_spec, refine.sizeOf_spec,
      make.sizeOf_spec]
    omega
  | object props | partialObject props | tagged _ props =>
    have hLt := sizeOf_named_lt h
    simp only [object.sizeOf_spec, partialObject.sizeOf_spec, tagged.sizeOf_spec]
    omega
  | tuple items | union items =>
    have hLt : sizeOf t < sizeOf items := List.sizeOf_lt_of_mem h
    simp only [tuple.sizeOf_spec, union.sizeOf_spec]
    omega
  | inter left right =>
    have hEither : t = left ∨ t = right := by simpa [parts] using h
    rw [inter.sizeOf_spec]
    rcases hEither with rfl | rfl
    · omega
    · omega

theorem parts_induction {motive : Schema → Prop}
    (step : ∀ s, (∀ t ∈ s.parts, motive t) → motive s) (s : Schema) : motive s :=
  step s fun t _ => parts_induction step t
termination_by sizeOf s
decreasing_by exact sizeOf_part_lt ‹_›

/-- `t` is a part of `s`, or what `s` links to. -/
inductive Leads (definitions : Definitions) : Schema → Schema → Prop
  | part {s t : Schema} : t ∈ s.parts → Leads definitions s t
  | link {link : Link} {t : Schema} : definitions.get? link.target = some t →
    Leads definitions (.lazy link) t

/-- `t` is met somewhere in `s`, links being followed. -/
def Reaches (definitions : Definitions) : Schema → Schema → Prop :=
  Relation.ReflTransGen (Leads definitions)

/-- `P` holds of the schema and of every schema that is met in it. -/
def Throughout (definitions : Definitions) (P : Schema → Prop) (s : Schema) : Prop :=
  ∀ t, s.Reaches definitions t → P t

namespace Throughout
variable {definitions : Definitions} {P : Schema → Prop} {s t : Schema}

theorem here (h : s.Throughout definitions P) : P s := h s .refl

theorem next (h : s.Throughout definitions P) (hLeads : Leads definitions s t) :
    t.Throughout definitions P := fun u hu => h u (.head hLeads hu)

theorem part (h : s.Throughout definitions P) (ht : t ∈ s.parts) : t.Throughout definitions P :=
  h.next (.part ht)

theorem link {link : Link} (h : (Schema.lazy link).Throughout definitions P)
    (hFound : definitions.get? link.target = some t) : t.Throughout definitions P :=
  h.next (.link hFound)

end Throughout

/-! The schema with everything that it is made of, links not being followed, as a list. -/

mutual

def nodes : Schema → List Schema
  | kind k => [kind k]
  | literal values => [literal values]
  | lazy link => [lazy link]
  | nullable s => nullable s :: s.nodes
  | object props => object props :: nodesNamed props
  | partialObject props => partialObject props :: nodesNamed props
  | record s => record s :: s.nodes
  | array s => array s :: s.nodes
  | tuple slots => tuple slots :: nodesEach slots
  | union members => union members :: nodesEach members
  | inter left right => inter left right :: (left.nodes ++ right.nodes)
  | tagged tag members => tagged tag members :: nodesNamed members
  | refine s holds expected => refine s holds expected :: s.nodes
  | make key s => make key s :: s.nodes

def nodesEach : List Schema → List Schema
  | [] => []
  | s :: rest => s.nodes ++ nodesEach rest

def nodesNamed : List (String × Schema) → List Schema
  | [] => []
  | (_, s) :: rest => s.nodes ++ nodesNamed rest

end

theorem nodesEach_eq (ss : List Schema) : nodesEach ss = ss.flatMap nodes := by
  induction ss with
  | nil => rfl
  | cons s rest ih => rw [nodesEach, ih, List.flatMap_cons]

theorem nodesNamed_eq (ss : List (String × Schema)) : nodesNamed ss = (ss.map (·.2)).flatMap nodes := by
  induction ss with
  | nil => rfl
  | cons e rest ih => rw [nodesNamed, ih, List.map_cons, List.flatMap_cons]

theorem mem_nodesNamed {ss : List (String × Schema)} {e : String × Schema} {t : Schema} (he : e ∈ ss)
    (ht : t ∈ e.2.nodes) : t ∈ nodesNamed ss := by
  rw [nodesNamed_eq, List.mem_flatMap]
  exact ⟨e.2, List.mem_map_of_mem he, ht⟩

theorem nodes_eq (s : Schema) : s.nodes = s :: s.parts.flatMap nodes := by
  cases s <;> simp [nodes, parts, nodesEach_eq, nodesNamed_eq]

theorem mem_nodes_of_part {s t u : Schema} (ht : t ∈ s.parts) (hu : u ∈ t.nodes) : u ∈ s.nodes := by
  rw [nodes_eq, List.mem_cons, List.mem_flatMap]
  exact .inr ⟨t, ht, hu⟩

theorem mem_nodes_part {s t u : Schema} (ht : t ∈ s.nodes) (hu : u ∈ t.parts) : u ∈ s.nodes := by
  induction s using parts_induction with
  | step s ih =>
    rw [nodes_eq, List.mem_cons, List.mem_flatMap] at ht ⊢
    rcases ht with rfl | ⟨part, hPart, ht⟩
    · exact .inr ⟨u, hu, nodes_eq u ▸ List.mem_cons_self⟩
    · exact .inr ⟨part, hPart, ih part hPart ht⟩

/-- What is met in a schema is one of its own nodes or one of those of the definitions. -/
theorem Throughout.of_nodes {definitions : Definitions} {P : Schema → Prop} {s : Schema}
    (h : ∀ t ∈ s.nodes ++ nodesNamed definitions, P t) : s.Throughout definitions P := by
  intro t ht
  apply h
  induction ht with
  | refl => exact List.mem_append_left _ (nodes_eq s ▸ List.mem_cons_self)
  | tail _ hLeads ih =>
    cases hLeads with
    | part hPart =>
      refine List.mem_append.mpr ((List.mem_append.mp ih).imp (fun ih => mem_nodes_part ih hPart) ?_)
      rw [nodesNamed_eq, List.mem_flatMap, List.mem_flatMap]
      rintro ⟨u, hu, ih⟩
      exact ⟨u, hu, mem_nodes_part ih hPart⟩
    | link hFound =>
      exact List.mem_append_right _ (mem_nodesNamed (Entries.mem_of_get? hFound) (nodes_eq _ ▸ List.mem_cons_self))

end Schema

end JsonShapes
