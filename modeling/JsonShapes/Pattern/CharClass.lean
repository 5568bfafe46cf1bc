import JsonShapes.Pattern.Basic

/-! # Character classes

A class is written between square brackets. It has single characters, ranges and further classes, and
accepts what any of them accepts; after a leading `^` it accepts everything else. Of two such lists the
operator `&&` takes what both accept, `--` what only the left one does, and `~~` what exactly one does;
operators are carried out from left to right.
-/
namespace JsonShapes.Pattern
set_option autoImplicit false

abbrev CharSet := Char → Bool

namespace CharSet

def none : CharSet := fun _ => false

def range (low high : Char) : CharSet := fun c => low ≤ c && c ≤ high

def union (s t : CharSet) : CharSet := fun c => s c || t c

def inter (s t : CharSet) : CharSet := fun c => s c && t c

def diff (s t : CharSet) : CharSet := fun c => s c && !t c

def symmDiff (s t : CharSet) : CharSet := fun c => s c != t c

def complementIf (negated : Bool) (s : CharSet) : CharSet := fun c => s c != negated

end CharSet

/-- A character, after its backslash if it has one. -/
def classChar? : List Char → Option (Char × List Char)
  | '\\' :: c :: rest => some (c, rest)
  | '\\' :: [] => none
  | c :: rest => some (c, rest)
  | [] => none

/-- A range or a single character. A dash is literal before a closing bracket and before another dash,
and so is one that comes after a whole range. -/
def classRange? (cs : List Char) : Option (CharSet × List Char) := do
  let (low, rest) ← classChar? cs
  let (high, rest) ← match rest with
    | '-' :: ']' :: _ | '-' :: '-' :: _ => some (low, rest)
    | '-' :: after => classChar? after
    | _ => some (low, rest)
  if high < low then none else some (.range low high, rest)

/-- The beginning of a class: whether it is negated, and what is literal only there, a closing bracket or
any number of dashes. -/
def classStart (cs : List Char) : Bool × CharSet × List Char :=
  let (negated, cs) := match cs with
    | '^' :: rest => (true, rest)
    | _ => (false, cs)
  match cs with
  | ']' :: rest => (negated, .range ']' ']', rest)
  | '-' :: rest => (negated, .range '-' '-', rest.dropWhile (· == '-'))
  | _ => (negated, .none, cs)

/-- The rest of a class. `operation` is still to be carried out on the list being read, of which `list` is
what has been read so far. -/
def members? : Nat → (CharSet → CharSet) → CharSet → List Char → Option (CharSet × List Char)
  | 0, _, _, _ => none
  | _ + 1, _, _, [] => none
  | _ + 1, operation, list, ']' :: rest => some (operation list, rest)
  | fuel + 1, operation, list, '[' :: rest => do
    let (negated, first, rest) := classStart rest
    let (inner, rest) ← members? fuel (fun s => s) first rest
    members? fuel operation (list.union (inner.complementIf negated)) rest
  | fuel + 1, operation, list, '&' :: '&' :: rest =>
    members? fuel (operation list).inter .none rest
  | fuel + 1, operation, list, '-' :: '-' :: rest =>
    members? fuel (operation list).diff .none rest
  | fuel + 1, operation, list, '~' :: '~' :: rest =>
    members? fuel (operation list).symmDiff .none rest
  | fuel + 1, operation, list, cs => do
    let (range, rest) ← classRange? cs
    members? fuel operation (list.union range) rest

/-- A class whose opening bracket has been read. -/
def class? (cs : List Char) : Option (CharSet × List Char) := do
  let (negated, first, rest) := classStart cs
  let (s, rest) ← members? (rest.length + 1) (fun s => s) first rest
  return (s.complementIf negated, rest)

end JsonShapes.Pattern
