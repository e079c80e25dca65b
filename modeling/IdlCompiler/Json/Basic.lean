/-
# JSON values

A JSON value whose objects keep the order of their members.  Equality of values does not
look at that order, `Json.same`; the texts that this library writes do.  The main
statements say what storing a member does: it is found again, the others stay as they
were, and a member that was there keeps its place.
-/
import IdlCompiler.Json.Number

namespace IdlCompiler

/-- A JSON value. -/
inductive Json where
  | null
  | bool (value : Bool)
  | number (value : Json.Number)
  | string (value : String)
  | array (items : List Json)
  | object (members : List (String × Json))
deriving Repr, Inhabited

namespace Json

/-- The members of an object, in order. -/
abbrev Members := List (String × Json)

namespace Members

/-- The value of the first member with this key. -/
def get? (members : Members) (key : String) : Option Json :=
  match members with
  | [] => none
  | (k, v) :: rest => if k = key then some v else get? rest key

/-- Stores a member.  A key that is there already keeps its place and takes the new value;
a new one goes to the end. -/
def insert (members : Members) (key : String) (value : Json) : Members :=
  match members with
  | [] => [(key, value)]
  | (k, v) :: rest => if k = key then (k, value) :: rest else (k, v) :: insert rest key value

/-- The members of `extra`, stored one after the other. -/
def insertAll (members extra : Members) : Members :=
  extra.foldl (fun ms (key, value) => insert ms key value) members

/-- The keys in order. -/
def keys (members : Members) : List String := members.map Prod.fst

end Members

/-- The members of an object. -/
def object? : Json → Option Members
  | object members => some members
  | _ => none

/-- The items of an array. -/
def array? : Json → Option (List Json)
  | array items => some items
  | _ => none

/-- The text of a string. -/
def string? : Json → Option String
  | string text => some text
  | _ => none

/-- The value of a word without sign. -/
def toUInt64? : Json → Option UInt64
  | number n => n.toUInt64?
  | _ => none

mutual

/-- Equality of JSON values that does not look at the order of members. -/
def same : Json → Json → Bool
  | null, null => true
  | bool a, bool b => a == b
  | number a, number b => a.same b
  | string a, string b => a == b
  | array as, array bs => sameItems as bs
  | object ms, object ns => ms.length == ns.length && sameMembers ms ns
  | _, _ => false
termination_by structural v => v

/-- Equality of arrays, item by item. -/
def sameItems : List Json → List Json → Bool
  | [], [] => true
  | a :: as, b :: bs => same a b && sameItems as bs
  | _, _ => false
termination_by structural vs => vs

/-- Tells whether every member of the first object is in the second with the same value. -/
def sameMembers : List (String × Json) → List (String × Json) → Bool
  | [], _ => true
  | (key, a) :: ms, ns =>
    (match Members.get? ns key with
      | some b => same a b
      | none => false) && sameMembers ms ns
termination_by structural ms => ms

end

/-! ## Laws of storing members -/

namespace Members

@[simp] theorem get?_nil (key : String) : get? [] key = none := rfl

theorem get?_cons (k : String) (v : Json) (rest : Members) (key : String) :
    get? ((k, v) :: rest) key = if k = key then some v else get? rest key := rfl

theorem insert_nil (key : String) (value : Json) : insert [] key value = [(key, value)] := rfl

theorem insert_cons (k : String) (v : Json) (rest : Members) (key : String) (value : Json) :
    insert ((k, v) :: rest) key value =
      if k = key then (k, value) :: rest else (k, v) :: insert rest key value := rfl

theorem mem_of_get? {members : Members} {key : String} {value : Json}
    (h : get? members key = some value) : (key, value) ∈ members := by
  induction members with
  | nil => simp at h
  | cons m rest ih =>
    obtain ⟨k, v⟩ := m
    by_cases hk : k = key
    · simp_all [get?_cons]
    · rw [get?_cons, if_neg hk] at h
      exact List.mem_cons_of_mem _ (ih h)

theorem get?_insert_self (members : Members) (key : String) (value : Json) :
    get? (insert members key value) key = some value := by
  induction members with
  | nil => simp [insert_nil, get?_cons]
  | cons m rest ih =>
    obtain ⟨k, v⟩ := m
    by_cases h : k = key <;> simp [insert_cons, get?_cons, h, ih]

theorem get?_insert_of_ne (members : Members) {key other : String} (value : Json)
    (h : other ≠ key) : get? (insert members key value) other = get? members other := by
  induction members with
  | nil => simp [insert_nil, get?_cons, Ne.symm h]
  | cons m rest ih =>
    obtain ⟨k, v⟩ := m
    by_cases hk : k = key
    · subst hk; simp [insert_cons, get?_cons, Ne.symm h]
    · by_cases ho : k = other
      · subst ho; simp [insert_cons, get?_cons, hk]
      · simp [insert_cons, get?_cons, hk, ho, ih]

theorem insert_of_notMem (members : Members) {key : String} (value : Json)
    (h : key ∉ keys members) : insert members key value = members ++ [(key, value)] := by
  induction members with
  | nil => rfl
  | cons m rest ih =>
    obtain ⟨k, v⟩ := m
    simp only [keys, List.map_cons, List.mem_cons, not_or] at h
    simp [insert_cons, Ne.symm h.1, ih h.2]

theorem keys_insert_of_mem (members : Members) {key : String} (value : Json)
    (h : key ∈ keys members) : keys (insert members key value) = keys members := by
  induction members with
  | nil => simp [keys] at h
  | cons m rest ih =>
    obtain ⟨k, v⟩ := m
    by_cases hk : k = key
    · simp [insert_cons, keys, hk]
    · simp only [keys, List.map_cons, List.mem_cons, Ne.symm hk, false_or] at h
      simpa [insert_cons, keys, hk] using ih h

end Members

end Json

end IdlCompiler
