/-
# Modules of generated code

What the module of a protocol consists of: enums, blocks of fixed size and structs in
order of declaration, the enums of the unions in their fields, and the service, which is
an error type, a trait with a method for each message, and the enums of its unions.
-/
import IdlCompiler.Target.Mapping

namespace IdlCompiler.Target

/-- An enum of symbols. -/
structure EnumDef where
  name : String
  doc : Option String
  symbols : List String
deriving DecidableEq, Repr

/-- The variant of each symbol, in order. -/
def EnumDef.variants (e : EnumDef) : List String := e.symbols.map Name.variantName

/-- A block of fixed size. -/
structure FixedDef where
  name : String
  doc : Option String
  size : UInt64
deriving DecidableEq, Repr

/-- A field of a struct or a parameter of a method. -/
structure MemberDef where
  ident : String
  doc : Option String
  type : TypeExpr
deriving DecidableEq, Repr

/-- A struct. -/
structure StructDef where
  name : String
  doc : Option String
  isError : Bool
  members : List MemberDef
deriving DecidableEq, Repr

/-- A definition with data. -/
inductive DataDef where
  | fixed (definition : FixedDef)
  | struct (definition : StructDef)
deriving DecidableEq, Repr

/-- The name of a definition. -/
def DataDef.name : DataDef → String
  | fixed d => d.name
  | struct d => d.name

/-- A method of the trait. -/
structure MethodDef where
  ident : String
  doc : Option String
  parameters : List MemberDef
  /-- The type of the answer, if the caller waits for one. -/
  answer : Option TypeExpr
deriving DecidableEq, Repr

/-- The service of a protocol. -/
structure Service where
  /-- The name of the protocol. -/
  protocol : String
  doc : Option String
  traitName : String
  errorName : String
  /-- The names of the error types that messages throw. -/
  errors : List String
  methods : List MethodDef
  unions : List UnionDef
deriving DecidableEq, Repr

/-- A module of generated code. -/
structure Module where
  /-- The name of the protocol. -/
  protocol : String
  space : Option String
  /-- The text of the canonical document. -/
  canonical : String
  enums : List EnumDef
  data : List DataDef
  unions : List UnionDef
  /-- The service, if the protocol has messages. -/
  service : Option Service
deriving DecidableEq, Repr

/-- The enum of a type, if it is one. -/
def enumOf? (t : ResolvedType) : Option EnumDef :=
  match t.body with
  | .symbols symbols => some ⟨t.targetName, t.doc, symbols⟩
  | _ => none

/-- A field of a record as a member of its struct, with the enums that it needs. -/
def memberOf (r : Resolved) (owner : ResolvedType) (f : ResolvedField) :
    MemberDef × List UnionDef :=
  let mapped := mapField r owner.fullName owner.targetName f
  (⟨f.ident, f.doc, mapped.type⟩, mapped.unions)

/-- The definition with data of a type, if it has one, with the enums that it needs. -/
def dataOf? (r : Resolved) (t : ResolvedType) : Option (DataDef × List UnionDef) :=
  match t.body with
  | .fixed size => some (.fixed ⟨t.targetName, t.doc, size⟩, [])
  | .record isError fields =>
    let members := fields.map (memberOf r t)
    some (.struct ⟨t.targetName, t.doc, isError, members.map Prod.fst⟩,
      members.flatMap Prod.snd)
  | .symbols _ => none

/-- A method of the trait, with the enums that it needs. -/
def methodOf (r : Resolved) (m : ResolvedMessage) : MethodDef × List UnionDef :=
  let name := Name.pascalCase m.name
  let parameters := m.request.map fun f =>
    let mapped := mapSchema r (name ++ Name.pascalCase f.name) f.schema
    ((⟨f.ident, f.doc, mapped.type⟩ : MemberDef), mapped.unions)
  let unions := parameters.flatMap Prod.snd
  if m.oneWay then (⟨m.methodName, m.doc, parameters.map Prod.fst, none⟩, unions)
  else
    let mapped := mapSchema r (name ++ "Response") m.response
    (⟨m.methodName, m.doc, parameters.map Prod.fst, some mapped.type⟩, unions ++ mapped.unions)

/-- The name of the trait of a protocol. -/
def traitName (r : Resolved) : String := Name.pascalCase r.name ++ "Protocol"

/-- The name of the error type of a protocol. -/
def errorName (r : Resolved) : String := Name.pascalCase r.name ++ "Error"

/-- Appends a name that is not in the list yet. -/
def appendNew (names : List String) (name : String) : List String :=
  if names.contains name then names else names ++ [name]

/-- The names of the error types that the messages throw, each once, in order. -/
def declaredErrors (r : Resolved) : List String :=
  ((r.messages.flatMap ResolvedMessage.errors).filterMap r.targetName?).foldl appendNew []

/-- The service of a protocol, if it has messages. -/
def serviceOf? (r : Resolved) : Option Service :=
  if r.messages.isEmpty then none
  else
    let methods := r.messages.map (methodOf r)
    some {
      protocol := r.name
      doc := r.doc
      traitName := traitName r
      errorName := errorName r
      errors := declaredErrors r
      methods := methods.map Prod.fst
      unions := methods.flatMap Prod.snd }

/-- The module of a protocol. -/
def Module.ofResolved (r : Resolved) : Module :=
  let data := r.types.filterMap (dataOf? r)
  { protocol := r.name
    space := r.space
    canonical := r.canonical
    enums := r.types.filterMap enumOf?
    data := data.map Prod.fst
    unions := data.flatMap Prod.snd
    service := serviceOf? r }

end IdlCompiler.Target
