import JsonShapes.Text.Digits
import JsonShapes.Value.Basic

/-! # Reading values

The reader takes a whole JSON text. An integer stays an integer when it fits in sixty-four bits,
unsigned when it is not negative and signed otherwise; every other number becomes the nearest float,
and so does minus zero. A repeated name in an object keeps its first place and its last value.

Each step gives back what it read and the characters that follow. Containers nest inside each other,
so their steps carry a bound on the work that is left; the length of the text is always enough.
-/
namespace JsonShapes.Value.Reader
set_option autoImplicit false
open Text

def skipBlanks (cs : List Char) : List Char :=
  cs.dropWhile fun c => c = ' ' || c = '\t' || c = '\n' || c = '\r'

/-- The float nearest to `digits * 10 ^ exponent`, when it is finite. -/
def nearestFloat? (digits : Nat) (exponent : Int) : Option Float :=
  let leading := exponent + Int.ofNat (Nat.toDigits 10 digits).length
  if digits = 0 ∨ leading < -400 then some 0.0
  else if 400 < leading then none
  else
    let x := Float.ofScientific digits (exponent < 0) exponent.natAbs
    if x.isFinite then some x else none

def integer? (negative : Bool) (n : Nat) : Option Number :=
  if negative then
    if n ≠ 0 ∧ n ≤ Nat.pow 2 63 then some (.int (-Int.ofNat n))
    else (nearestFloat? n 0).map fun x => .float (-x)
  else if n < Nat.pow 2 64 then some (.int (Int.ofNat n))
  else (nearestFloat? n 0).map .float

def exponent? : List Char → Option (Option Int × List Char)
  | c :: rest =>
    if c = 'e' ∨ c = 'E' then
      let (negative, rest) := match rest with
        | '-' :: rest => (true, rest)
        | '+' :: rest => (false, rest)
        | _ => (false, rest)
      let (digits, rest) := spanDigits rest
      if digits.isEmpty then none
      else
        let n := Int.ofNat (digitsValue digits)
        some (some (if negative then -n else n), rest)
    else some (none, c :: rest)
  | [] => some (none, [])

def fraction? : List Char → Option (Option (List Char) × List Char)
  | '.' :: rest =>
    let (digits, rest) := spanDigits rest
    if digits.isEmpty then none else some (some digits, rest)
  | rest => some (none, rest)

def number? (cs : List Char) : Option (Number × List Char) := do
  let (negative, cs) := match cs with
    | '-' :: rest => (true, rest)
    | _ => (false, cs)
  let (whole, rest) := spanDigits cs
  if whole.isEmpty || (whole.head? == some '0' && whole.length != 1) then none
  let (fraction, rest) ← fraction? rest
  let (exponent, rest) ← exponent? rest
  match fraction, exponent with
  | none, none => return (← integer? negative (digitsValue whole), rest)
  | _, _ =>
    let places := fraction.getD []
    let x ← nearestFloat? (digitsValue (whole ++ places))
      (exponent.getD 0 - Int.ofNat places.length)
    return (.float (if negative then -x else x), rest)

/-- A piece of a string: a character as it stands, or a sixteen-bit unit given by its code. -/
inductive Piece where
  | char (c : Char)
  | unit (code : Nat)

def hexDigit? (c : Char) : Option Nat :=
  if '0' ≤ c ∧ c ≤ '9' then some (c.toNat - 48)
  else if 'a' ≤ c ∧ c ≤ 'f' then some (c.toNat - 87)
  else if 'A' ≤ c ∧ c ≤ 'F' then some (c.toNat - 55)
  else none

def unit? (digits : List Char) : Option Nat := do
  return (← digits.mapM hexDigit?).foldl (fun n d => 16 * n + d) 0

def escaped? : Char → Option Char
  | '"' => some '"'
  | '\\' => some '\\'
  | '/' => some '/'
  | 'b' => some '\x08'
  | 'f' => some '\x0c'
  | 'n' => some '\n'
  | 'r' => some '\r'
  | 't' => some '\t'
  | _ => none

/-- The pieces up to the closing quote. -/
def pieces? : List Char → Option (List Piece × List Char)
  | [] => none
  | '"' :: rest => some ([], rest)
  | '\\' :: 'u' :: a :: b :: c :: d :: rest => do
    let code ← unit? [a, b, c, d]
    let (pieces, rest) ← pieces? rest
    return (.unit code :: pieces, rest)
  | '\\' :: e :: rest => do
    let e ← escaped? e
    let (pieces, rest) ← pieces? rest
    return (.char e :: pieces, rest)
  | c :: rest =>
    if c = '\\' ∨ c.toNat < 32 then none
    else do
      let (pieces, rest) ← pieces? rest
      return (.char c :: pieces, rest)

/-- Units of a surrogate pair name one character together; a lone surrogate names none. -/
def characters? : List Piece → Option (List Char)
  | [] => some []
  | .char c :: rest => (c :: ·) <$> characters? rest
  | .unit high :: rest =>
    if high < 0xD800 ∨ 0xDFFF < high then (Char.ofNat high :: ·) <$> characters? rest
    else match rest with
      | .unit low :: rest =>
        if high < 0xDC00 ∧ 0xDC00 ≤ low ∧ low ≤ 0xDFFF then
          (Char.ofNat (0x10000 + (high - 0xD800) * 0x400 + (low - 0xDC00)) :: ·) <$>
            characters? rest
        else none
      | _ => none

/-- The rest of a string whose opening quote has been read. -/
def string? (cs : List Char) : Option (String × List Char) := do
  let (pieces, rest) ← pieces? cs
  return (String.ofList (← characters? pieces), rest)

def literal? (word : List Char) (v : Value) (cs : List Char) : Option (Value × List Char) :=
  if word.isPrefixOf cs then some (v, cs.drop word.length) else none

mutual

def value? : Nat → List Char → Option (Value × List Char)
  | 0, _ => none
  | fuel + 1, cs =>
    match skipBlanks cs with
    | '"' :: rest => (string? rest).map fun (s, rest) => (.str s, rest)
    | '[' :: rest =>
      match skipBlanks rest with
      | ']' :: rest => some (.arr [], rest)
      | rest => (items? fuel rest).map fun (items, rest) => (.arr items, rest)
    | '\x7b' :: rest =>
      match skipBlanks rest with
      | '\x7d' :: rest => some (.obj [], rest)
      | rest => (entries? fuel rest).map fun (entries, rest) => (.obj (Entries.ofList entries), rest)
    | 't' :: rest => literal? "rue".toList (.bool true) rest
    | 'f' :: rest => literal? "alse".toList (.bool false) rest
    | 'n' :: rest => literal? "ull".toList .null rest
    | cs => (number? cs).map fun (n, rest) => (.num n, rest)

def items? : Nat → List Char → Option (List Value × List Char)
  | 0, _ => none
  | fuel + 1, cs => do
    let (v, rest) ← value? fuel cs
    match skipBlanks rest with
    | ',' :: rest => do
      let (items, rest) ← items? fuel rest
      return (v :: items, rest)
    | ']' :: rest => some ([v], rest)
    | _ => none

def entries? : Nat → List Char → Option (List (String × Value) × List Char)
  | 0, _ => none
  | fuel + 1, cs =>
    match skipBlanks cs with
    | '"' :: rest => do
      let (name, rest) ← string? rest
      match skipBlanks rest with
      | ':' :: rest => do
        let (v, rest) ← value? fuel rest
        match skipBlanks rest with
        | ',' :: rest => do
          let (entries, rest) ← entries? fuel rest
          return ((name, v) :: entries, rest)
        | '\x7d' :: rest => some ([(name, v)], rest)
        | _ => none
      | _ => none
    | _ => none

end

end JsonShapes.Value.Reader

namespace JsonShapes.Value

/-- The value that a JSON text stands for, if it is one. -/
def ofText? (text : String) : Option Value :=
  let cs := text.toList
  match Reader.value? (cs.length + 1) cs with
  | some (v, rest) => if (Reader.skipBlanks rest).isEmpty then some v else none
  | none => none

end JsonShapes.Value
