import JsonShapes.Value.Basic
import JsonShapes.Decimal.Layout
import JsonShapes.Text.Quoted

/-! # Writing values

The compact text has no blanks; the indented text puts every element of a non-empty container on a
line of its own, two blanks deeper than the container.
-/
namespace JsonShapes
set_option autoImplicit false

def Number.text : Number → String
  | .int n => toString n
  | .float x => if x.isFinite then Layout.json.float x else "null"

namespace Value

mutual

/-- The compact text. -/
def text : Value → String
  | null => "null"
  | bool true => "true"
  | bool false => "false"
  | num n => n.text
  | str s => Text.jsonQuoted s
  | arr items => "[" ++ String.intercalate "," (itemTexts items) ++ "]"
  | obj entries => "\x7b" ++ String.intercalate "," (entryTexts entries) ++ "\x7d"

def itemTexts : List Value → List String
  | [] => []
  | v :: rest => text v :: itemTexts rest

def entryTexts : List (String × Value) → List String
  | [] => []
  | (k, v) :: rest => (Text.jsonQuoted k ++ ":" ++ text v) :: entryTexts rest

end

def indentation (level : Nat) : String := String.ofList (List.replicate (2 * level) ' ')

/-- The lines of a container at `level`, between its brackets. -/
def block (level : Nat) (opening closing : String) (lines : List String) : String :=
  if lines.isEmpty then opening ++ closing
  else
    let inner := indentation (level + 1)
    opening ++ "\n" ++ String.intercalate ",\n" (lines.map (inner ++ ·)) ++ "\n" ++
      indentation level ++ closing

mutual

def indentedAt (level : Nat) : Value → String
  | arr items => block level "[" "]" (indentedItems (level + 1) items)
  | obj entries => block level "\x7b" "\x7d" (indentedEntries (level + 1) entries)
  | v => text v

def indentedItems (level : Nat) : List Value → List String
  | [] => []
  | v :: rest => indentedAt level v :: indentedItems level rest

def indentedEntries (level : Nat) : List (String × Value) → List String
  | [] => []
  | (k, v) :: rest => (Text.jsonQuoted k ++ ": " ++ indentedAt level v) :: indentedEntries level rest

end

/-- The indented text. -/
def indented (v : Value) : String := indentedAt 0 v

end Value

end JsonShapes
