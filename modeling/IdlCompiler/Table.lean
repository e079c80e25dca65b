/-
# Tables

A table from texts to values.  An entry hides the entries with its key behind it.
-/

namespace IdlCompiler

/-- A table from texts to values. -/
abbrev Table (α : Type) := List (String × α)

namespace Table

variable {α : Type}

/-- The value under a key. -/
def find? (table : Table α) (key : String) : Option α :=
  match table with
  | [] => none
  | (k, a) :: rest => if k = key then some a else find? rest key

/-- Stores a value, whether or not the key is there. -/
def put (table : Table α) (key : String) (a : α) : Table α := (key, a) :: table

/-- Stores a value unless the key is there. -/
def putNew (table : Table α) (key : String) (a : α) : Table α :=
  match find? table key with
  | some _ => table
  | none => put table key a

/-- Tells whether two tables without hidden entries hold the same. -/
def same [BEq α] (a b : Table α) : Bool :=
  a.length == b.length && a.all fun (key, value) => find? b key == some value

@[simp] theorem find?_nil (key : String) : find? ([] : Table α) key = none := rfl

theorem find?_put (table : Table α) (key other : String) (a : α) :
    find? (put table key a) other = if key = other then some a else find? table other := rfl

theorem find?_putNew (table : Table α) (key other : String) (a : α) :
    find? (putNew table key a) other = (find? table other).or (if key = other then some a else none)
    := by
  unfold putNew
  by_cases hk : key = other
  · subst hk
    cases h : find? table key <;> simp [find?_put, h]
  · cases h : find? table key <;> simp [find?_put, hk]

end Table

end IdlCompiler
