import JsonShapes.Text.Hidden

/-! # Quoted strings

Two ways to write a string between double quotes: the JSON one, used wherever a value or a property
name is shown, and the descriptive one, used when a registry or a cache key describes itself.
-/
namespace JsonShapes.Text
set_option autoImplicit false

/-- The `n` lowest hexadecimal digits of `code`, most significant first. -/
def hexadecimal (n code : Nat) : List Char :=
  let digits := Nat.toDigits 16 code
  List.replicate (n - digits.length) '0' ++ digits

def quotedBy (escape : Char → List Char) (s : String) : String :=
  String.ofList ('"' :: s.toList.flatMap escape ++ ['"'])

/-- Only quotes, backslashes and control characters below the blank are escaped. -/
def jsonEscape (c : Char) : List Char :=
  if c = '"' then ['\\', '"']
  else if c = '\\' then ['\\', '\\']
  else if c = '\x08' then ['\\', 'b']
  else if c = '\t' then ['\\', 't']
  else if c = '\n' then ['\\', 'n']
  else if c = '\x0c' then ['\\', 'f']
  else if c = '\r' then ['\\', 'r']
  else if c.toNat < 32 then '\\' :: 'u' :: hexadecimal 4 c.toNat
  else [c]

def jsonQuoted (s : String) : String := quotedBy jsonEscape s

/-- A character that cannot be seen is written by its code between braces. -/
def descriptiveEscape (c : Char) : List Char :=
  if c = '"' then ['\\', '"']
  else if c = '\\' then ['\\', '\\']
  else if c = '\t' then ['\\', 't']
  else if c = '\n' then ['\\', 'n']
  else if c = '\r' then ['\\', 'r']
  else if c = '\x00' then ['\\', '0']
  else if isHidden c then
    '\\' :: 'u' :: '\x7b' :: hexadecimal 1 c.toNat ++ ['\x7d']
  else [c]

def descriptiveQuoted (s : String) : String := quotedBy descriptiveEscape s

end JsonShapes.Text
