import JsonShapes.Text.Quoted

/-! # Caches of interpreted schemas

A schema may have a key: the name of its type, and data that tells the schemas of one type apart. Data
of different types differs even where it reads the same. The cache keeps the first representation that
is stored under a key.
-/
namespace JsonShapes
set_option autoImplicit false

inductive KeyData where
  | byte (n : Int)
  | word (n : Int)
  | int (n : Int)
  | bool (b : Bool)
  | string (s : String)
  | unit
deriving DecidableEq

def KeyData.describe : KeyData → String
  | byte n | word n | int n => toString n
  | bool b => if b then "true" else "false"
  | string s => Text.descriptiveQuoted s
  | unit => "()"

structure SchemaKey where
  name : String
  data : Option KeyData
deriving DecidableEq

def SchemaKey.describe (k : SchemaKey) : String :=
  let data := match k.data with
    | some data => ", data: " ++ data.describe
    | none => ""
  "SchemaKey \x7b schema: " ++ Text.descriptiveQuoted k.name ++ data ++ " \x7d"

structure Cache (ρ : Type) where
  entries : List (SchemaKey × ρ)

namespace Cache
variable {ρ : Type}

def empty : Cache ρ := ⟨[]⟩

def get? (c : Cache ρ) (key : SchemaKey) : Option ρ := List.lookup key c.entries

/-- The representation that the cache has under the key from now on, and the cache. -/
def insert (key : SchemaKey) (built : ρ) (c : Cache ρ) : ρ × Cache ρ :=
  match c.get? key with
  | some kept => (kept, c)
  | none => (built, ⟨c.entries ++ [(key, built)]⟩)

def length (c : Cache ρ) : Nat := c.entries.length

def isEmpty (c : Cache ρ) : Bool := c.entries.isEmpty

def describe (c : Cache ρ) : String := "Compiled \x7b len: " ++ toString c.length ++ " \x7d"

end Cache

end JsonShapes
