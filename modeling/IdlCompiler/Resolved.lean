/-
# Resolved protocols

A protocol prepared for generating code: every named type has its full name and its name
in generated code, every field its identifier, and every reference can be looked up.

A field whose type leads back to the record that it stands in has to be kept behind a
pointer.  `needsBox` finds out by a search over the references between records.
-/
import IdlCompiler.Protocol.Canonical
import IdlCompiler.Target.Name

namespace IdlCompiler

/-- A field or a parameter with its identifier. -/
structure ResolvedField where
  name : String
  ident : String
  schema : Schema
  doc : Option String
deriving DecidableEq, Repr

/-- What a resolved type is. -/
inductive ResolvedBody where
  | record (isError : Bool) (fields : List ResolvedField)
  | symbols (symbols : List String)
  | fixed (size : UInt64)
deriving DecidableEq, Repr

/-- A named type with its names. -/
structure ResolvedType where
  name : String
  fullName : String
  /-- The name in generated code. -/
  targetName : String
  doc : Option String
  body : ResolvedBody
deriving DecidableEq, Repr

/-- A message with its names. -/
structure ResolvedMessage where
  name : String
  methodName : String
  doc : Option String
  request : List ResolvedField
  response : Schema
  /-- The full names of the errors. -/
  errors : List String
  oneWay : Bool
deriving DecidableEq, Repr

/-- A resolved protocol. -/
structure Resolved where
  name : String
  space : Option String
  doc : Option String
  types : List ResolvedType
  messages : List ResolvedMessage
  /-- The text of the canonical document. -/
  canonical : String
  /-- The positions of full names. -/
  index : Table Nat
  /-- The full names that references stand for. -/
  references : Table String
deriving Repr

/-- The resolved form of a field. -/
def ResolvedField.ofField (f : Field) : ResolvedField :=
  { name := f.name, ident := Target.Name.fieldIdent f.name, schema := f.schema, doc := f.doc }

/-- The resolved form of what a type consists of. -/
def ResolvedBody.ofBody : TypeBody → ResolvedBody
  | .record isError fields => .record isError (fields.map .ofField)
  | .symbols names => .symbols names
  | .fixed bytes => .fixed bytes

/-- The resolved form of a type of a protocol. -/
def ResolvedType.ofType (p : Protocol) (t : NamedType) : ResolvedType :=
  { name := t.name
    fullName := p.fullNameOf t
    targetName := Target.Name.pascalCase t.name
    doc := t.doc
    body := .ofBody t.body }

/-- The full name of the type that a reference stands for, or the reference itself. -/
def Protocol.resolveName (p : Protocol) (reference : String) : String :=
  match p.getType? reference with
  | some t => p.fullNameOf t
  | none => reference

/-- The resolved form of a message of a protocol. -/
def ResolvedMessage.ofMessage (p : Protocol) (m : Message) : ResolvedMessage :=
  { name := m.name
    methodName := Target.Name.fieldIdent m.name
    doc := m.doc
    request := m.request.map .ofField
    response := m.response
    errors := m.errors.map p.resolveName
    oneWay := m.oneWay }

namespace Resolved

/-- The positions of full names; the last of several types with one name counts. -/
def indexOf (names : List String) : Table Nat :=
  names.zipIdx.foldl (fun index entry => index.put entry.1 entry.2) []

/-- Enters the names of every type: its full name, and its simple name unless an earlier
type has taken it. -/
def enterNames (p : Protocol) (references : Table String) (t : NamedType) : Table String :=
  (references.putNew t.name (p.fullNameOf t)).put (p.fullNameOf t) (p.fullNameOf t)

/-- Enters the simple name of a type that gives itself no namespace, whoever has it. -/
def enterOwnName (p : Protocol) (references : Table String) (t : NamedType) : Table String :=
  match t.space with
  | none => references.put t.name (p.fullNameOf t)
  | some _ => references

/-- The full names that references stand for.  Types in the namespace of the protocol take
simple names from the others. -/
def referencesOf (p : Protocol) : Table String :=
  p.types.foldl (enterOwnName p) (p.types.foldl (enterNames p) [])

/-- Resolves a protocol. -/
def ofProtocol (p : Protocol) : Resolved :=
  { name := p.name
    space := p.space
    doc := p.doc
    types := p.types.map (.ofType p)
    messages := p.messages.map (.ofMessage p)
    canonical := p.canonicalText
    index := indexOf (p.types.map p.fullNameOf)
    references := referencesOf p }

/-- The type with a full name. -/
def named? (r : Resolved) (fullName : String) : Option ResolvedType :=
  (r.index.find? fullName).bind fun i => r.types[i]?

/-- The type that a reference stands for. -/
def getType? (r : Resolved) (reference : String) : Option ResolvedType :=
  (r.references.find? reference).bind r.named?

/-- The name in generated code of the type that a reference stands for. -/
def targetName? (r : Resolved) (reference : String) : Option String :=
  (r.getType? reference).map ResolvedType.targetName

/-- The name of the module of generated code. -/
def moduleName (r : Resolved) : String := Target.Name.snakeCase r.name

/-! ## Recursive fields -/

/-- The full names of the types that the fields of a type refer to directly or as optional
values, in order. -/
def successors (r : Resolved) (fullName : String) : List String :=
  match (r.named? fullName).map ResolvedType.body with
  | some (.record _ fields) =>
    fields.filterMap fun f =>
      (f.schema.directReference?.bind r.getType?).map ResolvedType.fullName
  | _ => []

/-- Runs a search from one start after the other until one succeeds.  A search takes the
names visited so far and gives back more of them. -/
def searchAny (search : String → List String → Bool × List String) :
    List String → List String → Bool × List String
  | [], visited => (false, visited)
  | start :: starts, visited =>
    match search start visited with
    | (true, visited) => (true, visited)
    | (false, visited) => searchAny search starts visited

/-- Searches the goal from a start, depth first.  Every name is visited once, so a search
is never deeper than there are types. -/
def reaches (r : Resolved) (goal : String) :
    (depth : Nat) → String → List String → Bool × List String
  | 0, start, visited => (start = goal, visited)
  | depth + 1, start, visited =>
    if start = goal then (true, visited)
    else if visited.contains start then (false, visited)
    else searchAny (reaches r goal depth) (r.successors start) (start :: visited)

/-- Tells whether a field with a schema in the record `owner` has to be kept behind a
pointer, because its type leads back to the record.  Only direct and optional references
count, as arrays and maps are kept behind pointers anyway. -/
def needsBox (r : Resolved) (owner : String) (schema : Schema) : Bool :=
  match schema.directReference?.bind r.getType? with
  | none => false
  | some t => (r.reaches owner (r.types.length + 1) t.fullName []).1

end Resolved

end IdlCompiler
