/-! # Insertion-ordered entries

An object is a list of named entries in the order in which the names were first inserted.
Inserting under a name that is already present replaces its value and keeps its place, so lists
built with `ofList` name every entry once.
-/
namespace JsonShapes
set_option autoImplicit false

abbrev Entries (α : Type) := List (String × α)

namespace Entries
variable {α β : Type}

def get? (entries : Entries α) (name : String) : Option α := List.lookup name entries

def keys (entries : Entries α) : List String := entries.map (·.1)

def insert (name : String) (a : α) : Entries α → Entries α
  | [] => [(name, a)]
  | (k, b) :: rest => if k = name then (k, a) :: rest else (k, b) :: insert name a rest

/-- The entries of `right` inserted one after the other into `left`. -/
def merge (left right : Entries α) : Entries α :=
  right.foldl (fun entries e => insert e.1 e.2 entries) left

/-- A repeated name keeps its first place and its last value. -/
def ofList (entries : List (String × α)) : Entries α := merge [] entries

@[simp] theorem get?_nil (name : String) : get? ([] : Entries α) name = none := rfl

theorem get?_cons (k name : String) (a : α) (rest : Entries α) :
    get? ((k, a) :: rest) name = if name = k then some a else get? rest name := by
  by_cases h : name = k
  · simp [get?, h]
  · simp [get?, List.lookup_cons, h, beq_false_of_ne h]

theorem get?_insert (name k : String) (a : α) (entries : Entries α) :
    get? (insert name a entries) k = if k = name then some a else get? entries k := by
  induction entries with
  | nil => simp [insert, get?_cons]
  | cons e rest ih =>
    obtain ⟨n, b⟩ := e
    by_cases h : n = name
    · subst h
      by_cases hk : k = n <;> simp [insert, get?_cons, hk]
    · by_cases hk : k = n
      · subst hk
        simp [insert, get?_cons, h]
      · simp [insert, get?_cons, h, hk, ih]

theorem keys_insert (name : String) (a : α) (entries : Entries α) :
    keys (insert name a entries) =
      if name ∈ keys entries then keys entries else keys entries ++ [name] := by
  induction entries with
  | nil => simp [insert, keys]
  | cons e rest ih =>
    obtain ⟨n, b⟩ := e
    simp only [keys] at ih
    by_cases h : n = name
    · subst h
      simp [insert, keys]
    · have h' : name ≠ n := fun e => h e.symm
      simp only [insert, h, if_false, keys, List.map_cons, ih, List.mem_cons, h', false_or]
      split <;> simp_all

end Entries

end JsonShapes
