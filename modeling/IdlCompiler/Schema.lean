/-
# Schemas

The schema of a field, a parameter or a response: a primitive type, a container, a union
or a reference to a named type.
-/
import IdlCompiler.Json.Basic

namespace IdlCompiler

/-- The primitive types. -/
inductive Primitive where
  | null
  | boolean
  | int
  | long
  | float
  | double
  | bytes
  | string
deriving DecidableEq, Repr

namespace Primitive

/-- The name of a primitive type. -/
def name : Primitive → String
  | null => "null"
  | boolean => "boolean"
  | int => "int"
  | long => "long"
  | float => "float"
  | double => "double"
  | bytes => "bytes"
  | string => "string"

/-- All primitive types. -/
def all : List Primitive := [null, boolean, int, long, float, double, bytes, string]

/-- The primitive type with a name. -/
def ofName? (name : String) : Option Primitive := all.find? fun p => p.name = name

@[simp] theorem ofName?_name (p : Primitive) : ofName? p.name = some p := by
  cases p <;> decide

end Primitive

/-- A schema. -/
inductive Schema where
  /-- A primitive type. -/
  | primitive (type : Primitive)
  /-- A sequence of items. -/
  | array (items : Schema)
  /-- Values under keys that are texts. -/
  | map (values : Schema)
  /-- A value of one of the branches. -/
  | union (branches : List Schema)
  /-- A value of a named type. -/
  | named (name : String)
deriving Repr, Inhabited

namespace Schema

mutual

/-- Decides the equality of schemas. -/
def decEq : (a b : Schema) → Decidable (a = b)
  | primitive p, primitive q =>
    if h : p = q then isTrue (h ▸ rfl) else isFalse fun e => h (primitive.inj e)
  | array a, array b =>
    match decEq a b with
    | isTrue h => isTrue (h ▸ rfl)
    | isFalse h => isFalse fun e => h (array.inj e)
  | map a, map b =>
    match decEq a b with
    | isTrue h => isTrue (h ▸ rfl)
    | isFalse h => isFalse fun e => h (map.inj e)
  | union as, union bs =>
    match decEqList as bs with
    | isTrue h => isTrue (h ▸ rfl)
    | isFalse h => isFalse fun e => h (union.inj e)
  | named a, named b =>
    if h : a = b then isTrue (h ▸ rfl) else isFalse fun e => h (named.inj e)
  | primitive _, array _ | primitive _, map _ | primitive _, union _ | primitive _, named _
  | array _, primitive _ | array _, map _ | array _, union _ | array _, named _
  | map _, primitive _ | map _, array _ | map _, union _ | map _, named _
  | union _, primitive _ | union _, array _ | union _, map _ | union _, named _
  | named _, primitive _ | named _, array _ | named _, map _ | named _, union _ =>
    isFalse nofun
termination_by structural a => a

/-- Decides the equality of lists of schemas. -/
def decEqList : (as bs : List Schema) → Decidable (as = bs)
  | [], [] => isTrue rfl
  | [], _ :: _ | _ :: _, [] => isFalse nofun
  | a :: as, b :: bs =>
    match decEq a b, decEqList as bs with
    | isTrue h, isTrue hs => isTrue (h ▸ hs ▸ rfl)
    | isFalse h, _ => isFalse fun e => h (List.cons.inj e).1
    | _, isFalse hs => isFalse fun e => hs (List.cons.inj e).2
termination_by structural as => as

end

instance : DecidableEq Schema := decEq

/-- The schema of values that carry nothing. -/
abbrev null : Schema := primitive .null

/-- The schema that a word names: a primitive type, or else a named type. -/
def ofWord (word : String) : Schema :=
  match Primitive.ofName? word with
  | some p => primitive p
  | none => named word

/-- The primitive type that a schema is. -/
def primitive? : Schema → Option Primitive
  | primitive p => some p
  | _ => none

/-- Tells whether a schema is the null type. -/
def isNull (s : Schema) : Bool := s.primitive? = some .null

/-- Tells whether a schema is a union. -/
def isUnion : Schema → Bool
  | union _ => true
  | _ => false

/-- The other branch of a union of two branches of which exactly one is the null type.
Such a union is an optional value. -/
def optionalInner? : Schema → Option Schema
  | union [a, b] =>
    if a.isNull then if b.isNull then none else some b
    else if b.isNull then some a
    else none
  | _ => none

/-- The name that a schema refers to directly or as an optional value. -/
def directReference? (s : Schema) : Option String :=
  match s with
  | named name => some name
  | _ =>
    match s.optionalInner? with
    | some (named name) => some name
    | _ => none

mutual

/-- The names that a schema refers to, from left to right. -/
def references : Schema → List String
  | primitive _ => []
  | array items => references items
  | map values => references values
  | union branches => referencesOfAll branches
  | named name => [name]
termination_by structural s => s

/-- The names that a list of schemas refers to, from left to right. -/
def referencesOfAll : List Schema → List String
  | [] => []
  | s :: ss => references s ++ referencesOfAll ss
termination_by structural ss => ss

end

mutual

/-- The JSON form of a schema: a name, an object for a container, an array for a union. -/
def toJson : Schema → Json
  | primitive p => .string p.name
  | array items => .object [("type", .string "array"), ("items", toJson items)]
  | map values => .object [("type", .string "map"), ("values", toJson values)]
  | union branches => .array (toJsonAll branches)
  | named name => .string name
termination_by structural s => s

/-- The JSON forms of a list of schemas. -/
def toJsonAll : List Schema → List Json
  | [] => []
  | s :: ss => toJson s :: toJsonAll ss
termination_by structural ss => ss

end

/-! ## Small laws -/

theorem isNull_iff {s : Schema} : s.isNull ↔ s = .null := by
  cases s <;> simp [isNull, primitive?]

theorem toJsonAll_eq_map (ss : List Schema) : toJsonAll ss = ss.map toJson := by
  induction ss with
  | nil => rfl
  | cons s ss ih => simp [toJsonAll, ih]

theorem referencesOfAll_eq_flatMap (ss : List Schema) :
    referencesOfAll ss = ss.flatMap references := by
  induction ss with
  | nil => rfl
  | cons s ss ih => simp [referencesOfAll, ih]

@[simp] theorem ofWord_name (p : Primitive) : ofWord p.name = primitive p := by
  simp [ofWord]

end Schema

end IdlCompiler
