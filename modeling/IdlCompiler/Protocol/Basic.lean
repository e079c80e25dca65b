/-
# Protocols

A protocol has named types, which are records, errors, enums and blocks of fixed size, and
messages, which are remote calls.  Types are found by reference through a lookup from full
names to positions.  The lookup is kept beside the types: `addType` extends it,
`buildLookup` makes it anew, and an edit of the types alone leaves it as it was.
-/
import IdlCompiler.Name
import IdlCompiler.Schema
import IdlCompiler.Table

namespace IdlCompiler

/-- Custom properties of a protocol, a type, a field or a message, in order. -/
abbrev Properties := Json.Members

/-- A field of a record or a parameter of a message. -/
structure Field where
  name : String
  schema : Schema
  /-- The default value.  A default that is null is not the same as none. -/
  default? : Option Json := none
  doc : Option String := none
  properties : Properties := []
deriving Repr

/-- What all named types have in common. -/
structure TypeHead where
  /-- The simple name. -/
  name : String
  /-- The namespace that the type gives itself, instead of the protocol's. -/
  space : Option String := none
  doc : Option String := none
  properties : Properties := []
deriving Repr

/-- What a named type is. -/
inductive TypeBody where
  /-- A record, or an error if it may be thrown. -/
  | record (isError : Bool) (fields : List Field)
  /-- One of several symbols. -/
  | symbols (symbols : List String)
  /-- A block of so many bytes. -/
  | fixed (size : UInt64)
deriving Repr

/-- A named type. -/
structure NamedType extends TypeHead where
  body : TypeBody
deriving Repr

/-- A message, which is a remote call. -/
structure Message where
  name : String
  doc : Option String := none
  properties : Properties := []
  /-- The parameters in order. -/
  request : List Field := []
  /-- The schema of the answer, null for none. -/
  response : Schema
  /-- References to the errors that the message may throw. -/
  errors : List String := []
  /-- Tells whether the caller does not wait for an answer. -/
  oneWay : Bool := false
deriving Repr

/-- A protocol. -/
structure Protocol where
  name : String
  /-- The namespace of the types that give themselves none. -/
  space : Option String := none
  doc : Option String := none
  properties : Properties := []
  /-- The named types in order of declaration. -/
  types : List NamedType := []
  /-- The messages in order of declaration. -/
  messages : List Message := []
  /-- Full names with the position of the type they stand for. -/
  lookup : Table Nat := []
deriving Repr

/-! ## Named types -/

namespace NamedType

/-- The full name of a type whose protocol has the namespace `outer`. -/
def fullName (outer : Option String) (t : NamedType) : String :=
  match t.space.or outer with
  | some space => if space = "" then t.name else Name.qualify space t.name
  | none => t.name

/-- Tells whether a type is a record and no error. -/
def isRecord (t : NamedType) : Bool := match t.body with
  | .record isError _ => !isError
  | _ => false

/-- Tells whether a type is an error. -/
def isError (t : NamedType) : Bool := match t.body with
  | .record isError _ => isError
  | _ => false

/-- Tells whether a type is an enum. -/
def isEnum (t : NamedType) : Bool := match t.body with
  | .symbols _ => true
  | _ => false

/-- Tells whether a type is a block of fixed size. -/
def isFixed (t : NamedType) : Bool := match t.body with
  | .fixed _ => true
  | _ => false

/-- The word for what a type is. -/
def kindName (t : NamedType) : String := match t.body with
  | .record isError _ => if isError then "error" else "record"
  | .symbols _ => "enum"
  | .fixed _ => "fixed"

/-- The fields of a record or an error. -/
def fields? (t : NamedType) : Option (List Field) := match t.body with
  | .record _ fields => some fields
  | _ => none

end NamedType

/-- The first field with a name. -/
def Field.find? (fields : List Field) (name : String) : Option Field :=
  List.find? (fun f => f.name = name) fields

/-! ## Protocols -/

namespace Protocol

/-- A protocol with nothing in it. -/
def empty (name : String) (space : Option String) : Protocol := { name, space }

/-- The full name of a type in a protocol. -/
def fullNameOf (p : Protocol) (t : NamedType) : String := t.fullName p.space

/-- Appends a type.  Its full name enters the lookup unless it is there already. -/
def addType (p : Protocol) (t : NamedType) : Protocol :=
  { p with
    types := p.types ++ [t]
    lookup := p.lookup.putNew (p.fullNameOf t) p.types.length }

/-- Tells whether no type has the full name of `t` yet. -/
def isFresh (p : Protocol) (t : NamedType) : Bool := (p.lookup.find? (p.fullNameOf t)).isNone

/-- Appends a message. -/
def addMessage (p : Protocol) (m : Message) : Protocol := { p with messages := p.messages ++ [m] }

/-- The lookup of a list of full names: the first position of each. -/
def lookupOf (names : List String) : Table Nat :=
  names.zipIdx.foldl (fun lookup entry => lookup.putNew entry.1 entry.2) []

/-- Makes the lookup anew from the types. -/
def buildLookup (p : Protocol) : Protocol :=
  { p with lookup := lookupOf (p.types.map p.fullNameOf) }

/-- The position of the type that a reference stands for.  A reference without a dot is
tried in the namespace of the protocol first. -/
def resolve? (p : Protocol) (reference : String) : Option Nat :=
  let plain := p.lookup.find? reference
  if Name.hasDot reference then plain
  else match p.space with
    | none => plain
    | some space => (p.lookup.find? (Name.qualify space reference)).or plain

/-- The type that a reference stands for. -/
def getType? (p : Protocol) (reference : String) : Option NamedType :=
  (p.resolve? reference).bind fun i => p.types[i]?

/-- Tells whether a reference stands for a type. -/
def hasType (p : Protocol) (reference : String) : Bool := (p.resolve? reference).isSome

/-- The first message with a name. -/
def getMessage? (p : Protocol) (name : String) : Option Message :=
  p.messages.find? fun m => m.name = name

end Protocol

end IdlCompiler
