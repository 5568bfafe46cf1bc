/-! # Text patterns

A pattern is searched for anywhere in a text. The matches under way are kept as marks on the characters of
the pattern that they have just read. Reading on moves all marks at once, so a text is read a single time
however many ways there are to match it.

A mark says how far some match has come, never where it began. That is enough, as a search only asks
whether there is a match. A part of the pattern that has no mark and that no match comes to is passed
over, so a step costs as much as there are matches under way.
-/
namespace JsonShapes
set_option autoImplicit false

inductive Pattern where
  | empty
  | char (accepts : Char → Bool)
  | start
  | stop
  | seq (first second : Pattern)
  | alt (left right : Pattern)
  | plus (body : Pattern)

/-- Which ends of the text a place between two characters is at. -/
structure Place where
  atStart : Bool
  atEnd : Bool

/-- The marks on a pattern, laid out as the pattern is; `none` stands for any part without a mark. -/
inductive Marks where
  | none
  | here
  | both (left right : Marks)

namespace Marks

def any : Marks → Bool
  | none => false
  | _ => true

def left : Marks → Marks
  | both l _ => l
  | _ => none

def right : Marks → Marks
  | both _ r => r
  | _ => none

def join : Marks → Marks → Marks
  | none, none => none
  | l, r => both l r

end Marks

namespace Pattern

/-- Whether a match can be complete at a place: one under way, or one that reads nothing if a match
may begin there. -/
def leaves (place : Place) : Pattern → Marks → Bool → Bool
  | empty, _, enter => enter
  | char _, marks, _ => marks.any
  | start, _, enter => enter && place.atStart
  | stop, _, enter => enter && place.atEnd
  | seq first second, marks, enter =>
    (marks.any || enter) && second.leaves place marks.right (first.leaves place marks.left enter)
  | alt left right, marks, enter =>
    (marks.any || enter) && (left.leaves place marks.left enter || right.leaves place marks.right enter)
  | plus body, marks, enter => body.leaves place marks enter

/-- Moves the marks over the character `c` that comes after a place; `enter` tells whether a match may
begin there. -/
def advance (place : Place) (c : Char) : Pattern → Marks → Bool → Marks
  | char accepts, _, enter => if enter && accepts c then .here else .none
  | seq first second, marks, enter =>
    if marks.any || enter then
      .join (first.advance place c marks.left enter)
        (second.advance place c marks.right (first.leaves place marks.left enter))
    else .none
  | alt left right, marks, enter =>
    if marks.any || enter then
      .join (left.advance place c marks.left enter) (right.advance place c marks.right enter)
    else .none
  | plus body, marks, enter =>
    body.advance place c marks (enter || body.leaves place marks enter)
  | empty, _, _ | start, _, _ | stop, _, _ => .none

/-- Whether a match is complete at some place from here on; a match may begin at every place. -/
def search (p : Pattern) (marks : Marks) (atStart : Bool) : List Char → Bool
  | [] => p.leaves ⟨atStart, true⟩ marks true
  | c :: rest =>
    let place : Place := ⟨atStart, false⟩
    if p.leaves place marks true then true
    else p.search (p.advance place c marks true) false rest

def isMatch (p : Pattern) (s : String) : Bool := p.search .none true s.toList

def opt (p : Pattern) : Pattern := .alt .empty p

def star (p : Pattern) : Pattern := opt (.plus p)

/-- `n` copies in a row, followed by `rest`. -/
def times (p : Pattern) : Nat → Pattern → Pattern
  | 0, rest => rest
  | n + 1, rest => .seq p (times p n rest)

/-- At most `n` copies. -/
def upTo (p : Pattern) : Nat → Pattern
  | 0 => .empty
  | n + 1 => opt (.seq p (upTo p n))

def atLeast (p : Pattern) : Nat → Pattern
  | 0 => star p
  | n + 1 => times p n (.plus p)

def between (p : Pattern) (low high : Nat) : Pattern := times p low (upTo p (high - low))

end Pattern

end JsonShapes
