/-
# From schemas to types

Every schema has a type expression.  A union that is not an optional value needs an enum
of its own, which is named after the place where the union stands; the mapping collects
these enums beside the type, those of the payloads before the one that uses them.
-/
import IdlCompiler.Resolved
import IdlCompiler.Target.TypeExpr

namespace IdlCompiler.Target

/-- A type expression and the enums that it needs. -/
structure Mapped where
  type : TypeExpr
  unions : List UnionDef := []
deriving DecidableEq, Repr

/-- Wraps the type and keeps the enums. -/
def Mapped.wrap (m : Mapped) (f : TypeExpr → TypeExpr) : Mapped := { m with type := f m.type }

/-- The type of a primitive type. -/
def primitiveType : Primitive → TypeExpr
  | .null => .unit
  | .boolean => .bool
  | .int => .i32
  | .long => .i64
  | .float => .f32
  | .double => .f64
  | .bytes => .bytes
  | .string => .string

/-- The part of a name behind its last dot. -/
def simpleName (name : String) : String := (IdlCompiler.Name.segments name).getLastD name

/-- The name in generated code of the type that a reference stands for.  A reference that
stands for no type keeps its own simple name. -/
def referenceName (r : Resolved) (reference : String) : String :=
  (r.targetName? reference).getD (Name.pascalCase (simpleName reference))

/-- The name of the variant of a branch. -/
def branchName (r : Resolved) : Schema → String
  | .named name => referenceName r name
  | .array _ => "Array"
  | .map _ => "Map"
  | .union _ => "Union"
  | .primitive p => Name.pascalCase p.name

mutual

/-- Maps a schema to a type; `hint` names the enum of a union. -/
def mapSchema (r : Resolved) (hint : String) : Schema → Mapped
  | .primitive p => { type := primitiveType p }
  | .array items => (mapSchema r (hint ++ "Item") items).wrap .sequence
  | .map values => (mapSchema r (hint ++ "Value") values).wrap .dictionary
  | .named name => { type := .named (referenceName r name) }
  | .union branches =>
    match mapOptional? r hint branches with
    | some inner => inner.wrap .optional
    | none =>
      let mapped := mapBranches r hint branches
      { type := .named hint, unions := mapped.2 ++ [⟨hint, mapped.1⟩] }
termination_by structural s => s

/-- Maps the other branch of a union of two branches of which exactly one is null. -/
def mapOptional? (r : Resolved) (hint : String) : List Schema → Option Mapped
  | [a, b] =>
    if a.isNull then if b.isNull then none else some (mapSchema r hint b)
    else if b.isNull then some (mapSchema r hint a)
    else none
  | _ => none
termination_by structural ss => ss

/-- Maps the branches of a union to variants, with the enums that their data need. -/
def mapBranches (r : Resolved) (hint : String) : List Schema → List Variant × List UnionDef
  | [] => ([], [])
  | branch :: branches =>
    let name := branchName r branch
    let rest := mapBranches r hint branches
    if branch.isNull then (⟨name, none⟩ :: rest.1, rest.2)
    else
      let mapped := mapSchema r (hint ++ name) branch
      (⟨name, some mapped.type⟩ :: rest.1, mapped.unions ++ rest.2)
termination_by structural ss => ss

end

/-- Maps the schema of a field of the record with the full name `owner` and the name
`ownerName` in generated code.  A field that leads back to its record is boxed. -/
def mapField (r : Resolved) (owner ownerName : String) (f : ResolvedField) : Mapped :=
  let hint := ownerName ++ Name.pascalCase f.name
  if r.needsBox owner f.schema then
    match f.schema.optionalInner? with
    | some inner => (mapSchema r hint inner).wrap fun t => .optional (.boxed t)
    | none => (mapSchema r hint f.schema).wrap .boxed
  else mapSchema r hint f.schema

end IdlCompiler.Target
