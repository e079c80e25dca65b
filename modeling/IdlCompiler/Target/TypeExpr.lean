/-
# Types in generated code

The type expressions that generated code uses for schemas.
-/

namespace IdlCompiler.Target

/-- A type expression of generated code. -/
inductive TypeExpr where
  | unit
  | bool
  | i32
  | i64
  | f32
  | f64
  | bytes
  | string
  | sequence (items : TypeExpr)
  | dictionary (values : TypeExpr)
  | optional (value : TypeExpr)
  | boxed (value : TypeExpr)
  | named (name : String)
deriving DecidableEq, Repr

namespace TypeExpr

/-- The text of a type expression. -/
def text : TypeExpr → String
  | unit => "()"
  | bool => "bool"
  | i32 => "i32"
  | i64 => "i64"
  | f32 => "f32"
  | f64 => "f64"
  | bytes => "Vec<u8>"
  | string => "String"
  | sequence items => "Vec<" ++ items.text ++ ">"
  | dictionary values => "std::collections::BTreeMap<String, " ++ values.text ++ ">"
  | optional value => "Option<" ++ value.text ++ ">"
  | boxed value => "Box<" ++ value.text ++ ">"
  | named name => name

/-- The names of definitions that a type expression mentions, from left to right. -/
def mentions : TypeExpr → List String
  | sequence t | dictionary t | optional t | boxed t => t.mentions
  | named name => [name]
  | _ => []

/-- The names of definitions whose values a value of the type contains directly.  A value
behind a pointer, in a sequence or in a dictionary is not contained directly. -/
def contents : TypeExpr → List String
  | optional t => t.contents
  | named name => [name]
  | _ => []

end TypeExpr

/-- A variant of an enum with data: its name, and the type of its data if it has any. -/
structure Variant where
  name : String
  payload : Option TypeExpr
deriving DecidableEq, Repr

/-- An enum that stands for a union. -/
structure UnionDef where
  name : String
  variants : List Variant
deriving DecidableEq, Repr

end IdlCompiler.Target
