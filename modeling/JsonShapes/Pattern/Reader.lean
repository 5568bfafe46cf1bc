import JsonShapes.Pattern.CharClass
import JsonShapes.Text.Digits

/-! # Reading patterns

Patterns are written with literal characters, `.` for any character but a line feed, classes between
square brackets, `^` and `$` for the ends of the text, groups, alternatives, and the repetitions `?`,
`*`, `+`, `{m}`, `{m,}` and `{m,n}`, each of which may be followed by `?`. A backslash takes the
next character literally.

The reader keeps the groups that are still open on a stack. Each of them has the alternatives already
closed by a bar and, last one first, the items of the alternative being read.
-/
namespace JsonShapes.Pattern
set_option autoImplicit false

structure Group where
  closed : Option Pattern
  items : List Pattern

namespace Group

def fresh : Group := ⟨none, []⟩

def sequence (items : List Pattern) : Pattern :=
  items.foldl (fun rest p => .seq p rest) .empty

def pattern (g : Group) : Pattern :=
  match g.closed with
  | none => sequence g.items
  | some p => .alt p (sequence g.items)

def push (p : Pattern) (g : Group) : Group := { g with items := p :: g.items }

/-- Ends the alternative being read. -/
def bar (g : Group) : Group := ⟨some g.pattern, []⟩

def modifyLast? (f : Pattern → Pattern) (g : Group) : Option Group :=
  match g.items with
  | [] => none
  | p :: rest => some { g with items := f p :: rest }

end Group

/-- A bound of a counted repetition, which may stand between blanks. -/
def bound? (cs : List Char) : Option (Nat × List Char) :=
  let (digits, rest) := Text.spanDigits (cs.dropWhile Char.isWhitespace)
  if digits.isEmpty then none
  else some (Text.digitsValue digits, rest.dropWhile Char.isWhitespace)

/-- The bounds of a counted repetition whose opening brace has been read. -/
def bounds? (cs : List Char) : Option ((Pattern → Pattern) × List Char) := do
  let (low, rest) ← bound? cs
  match rest with
  | '\x7d' :: rest => some (fun p => p.between low low, rest)
  | ',' :: '\x7d' :: rest => some (fun p => p.atLeast low, rest)
  | ',' :: rest =>
    let (high, rest) ← bound? rest
    match rest with
    | '\x7d' :: rest => if low ≤ high then some (fun p => p.between low high, rest) else none
    | _ => none
  | _ => none

def skipQuestion : List Char → List Char
  | '?' :: rest => rest
  | rest => rest

def read? : Nat → Group → List Group → List Char → Option Pattern
  | 0, _, _, _ => none
  | _ + 1, g, [], [] => some g.pattern
  | _ + 1, _, _ :: _, [] => none
  | fuel + 1, g, outer, c :: cs =>
    if c = '(' then
      let cs := match cs with
        | '?' :: ':' :: rest => rest
        | _ => cs
      read? fuel Group.fresh (g :: outer) cs
    else if c = ')' then
      match outer with
      | [] => none
      | o :: outer => read? fuel (o.push g.pattern) outer cs
    else if c = '|' then read? fuel g.bar outer cs
    else if c = '*' then do read? fuel (← g.modifyLast? star) outer (skipQuestion cs)
    else if c = '+' then do read? fuel (← g.modifyLast? .plus) outer (skipQuestion cs)
    else if c = '?' then do read? fuel (← g.modifyLast? opt) outer (skipQuestion cs)
    else if c = '\x7b' then do
      let (repeated, rest) ← bounds? cs
      read? fuel (← g.modifyLast? repeated) outer (skipQuestion rest)
    else if c = '[' then do
      let (s, rest) ← class? cs
      read? fuel (g.push (.char s)) outer rest
    else if c = '.' then read? fuel (g.push (.char (· != '\n'))) outer cs
    else if c = '^' then read? fuel (g.push .start) outer cs
    else if c = '$' then read? fuel (g.push .stop) outer cs
    else if c = '\\' then
      match cs with
      | [] => none
      | e :: rest => read? fuel (g.push (.char (· == e))) outer rest
    else read? fuel (g.push (.char (· == c))) outer cs

def ofText? (text : String) : Option Pattern :=
  let cs := text.toList
  read? (cs.length + 1) Group.fresh [] cs

end JsonShapes.Pattern
