import JsonShapes.Accum.Cursor
import JsonShapes.Failure.Basic
import JsonShapes.Value.Writer

/-! # Drawing failures

For people, failures are turned into a forest of labels and drawn with box characters, one line per
label. A child is grafted below its parent: its first line follows a connector, and all its other
lines are indented by a bar while siblings are still to come. Writing the lines one behind the other,
with what begins each of them passed down to the children, gives the same drawing.
-/
namespace JsonShapes
set_option autoImplicit false

inductive Tree where
  | node (label : String) (children : List Tree)

namespace Tree

def label : Tree → String
  | node label _ => label

def children : Tree → List Tree
  | node _ children => children

/-- Puts `first` before the first line and `others` before each of the rest. -/
def graft (first others : String) : List String → List String
  | [] => []
  | line :: rest => (first ++ line) :: rest.map (others ++ ·)

mutual

def lines : Tree → List String
  | node label children => label :: linesBelow children

def linesBelow : List Tree → List String
  | [] => []
  | [t] => graft "└─ " "   " t.lines
  | t :: rest => graft "├─ " "│  " t.lines ++ linesBelow rest

end

def draw (t : Tree) : String := String.intercalate "\n" t.lines

/-! ## Writing line by line -/

/-- Writes a forest behind `out`. Every label is on a line of its own, which begins with `margin`. -/
def writeForest (out margin : String) : List Tree → String
  | [] => out
  | [node label children] => writeForest (out ++ margin ++ "└" ++ "─ " ++ label) (margin ++ "   ") children
  | node label children :: rest =>
    writeForest (writeForest (out ++ margin ++ "├" ++ "─ " ++ label) (margin ++ "│  ") children) margin rest

def write : Tree → String
  | node label children => writeForest label "\n" children

theorem intercalate_cons (separator first : String) (rest : List String) :
    String.intercalate separator (first :: rest) = first ++ String.join (rest.map (separator ++ ·)) := by
  induction rest generalizing first with
  | nil => simp
  | cons second rest ih =>
    rw [String.intercalate_cons_cons, ih, List.map_cons, String.join_cons, String.append_assoc,
      String.append_assoc]

theorem join_graft (margin first others label : String) (rest : List String) :
    String.join ((graft first others (label :: rest)).map (margin ++ ·)) =
      margin ++ first ++ label ++ String.join (rest.map (margin ++ others ++ ·)) := by
  simp only [graft, List.map_cons, List.map_map, String.join_cons, Function.comp_def, String.append_assoc]

/-- What is written behind `out` are the lines below, whatever stands there and whatever they begin with. -/
theorem writeForest_eq (out margin : String) (forest : List Tree) :
    writeForest out margin forest = out ++ String.join ((linesBelow forest).map (margin ++ ·)) := by
  fun_induction writeForest out margin forest with
  | case1 out margin => rw [linesBelow, List.map_nil, String.join_nil, String.append_empty]
  | case2 out margin label children ih =>
    rw [ih, linesBelow, lines, join_graft]
    simp only [String.append_assoc]
    rfl
  | case3 out margin label children rest hRest ih ihRest =>
    rw [ihRest, ih, linesBelow, List.map_append, String.join_append, lines, join_graft]
    · simp only [String.append_assoc]
      rfl
    · exact hRest

theorem write_eq_draw (t : Tree) : t.write = t.draw := by
  cases t with
  | node label children => rw [write, writeForest_eq, draw, lines, intercalate_cons]

end Tree

variable {ε : Type} [ToString ε]

mutual

def Failure.tree : Failure ε → Tree
  | .leaf actual expected =>
    .node ("cannot decode " ++ actual.text ++ ", should be " ++ toString expected) []
  | .key name presence within =>
    .node (presence.text ++ " property " ++ Text.jsonQuoted name) (Failures.forest within)
  | .index position presence within =>
    .node (presence.text ++ " index " ++ toString position) (Failures.forest within)
  | .member branch within => .node ("member " ++ toString branch) (Failures.forest within)
  | .lazy id within => .node ("lazy type " ++ id) (Failures.forest within)
  | .note message within => .node (toString message) (Failures.forest within)

/-- One tree per failure, in order. -/
def Failures.forest : Failures ε → List Tree
  | .single f => [f.tree]
  | .join l r => Failures.forest l ++ Failures.forest r

end

/-- A cursor comes past the failures in the order in which they are drawn. -/
theorem Failures.forest_eq_drain (failures : Failures ε) :
    failures.forest = failures.cursor.drain.map Failure.tree := by
  rw [Accum.drain_cursor]
  induction failures with
  | single f => rfl
  | join l r ihLeft ihRight => rw [Failures.forest, ihLeft, ihRight, Accum.toList_join, List.map_append]

/-- The trees of the forest drawn below each other. -/
def Failures.draw (failures : Failures ε) : String :=
  String.intercalate "\n" (failures.forest.map Tree.draw)

/-- A decoded value as indented JSON, or the drawing of the failures. -/
def Checked.describe (result : Checked (Failure ε) Value) : String :=
  match result with
  | .ok v => v.indented
  | .error failures => Failures.draw failures

end JsonShapes
