/-
# Well-formed protocols

The check that a protocol is well formed, which reports the first flaw it meets: names are
identifiers, names of one kind differ, references stand for types, unions are flat and
tell their branches apart, and messages throw errors only.
-/
import IdlCompiler.Protocol.Flaw

namespace IdlCompiler

/-- The outcome of a check: nothing, or a flaw. -/
abbrev Check := Except Flaw Unit

namespace Protocol

/-- The check passes if a condition holds, and else reports a flaw. -/
def require (condition : Bool) (flaw : Flaw) : Check := if condition then .ok () else .error flaw

/-- Checks a namespace. -/
def checkSpace (space : Option String) (owner : SpaceOwner) : Check :=
  match space with
  | none => .ok ()
  | some space => require (Name.isDotted space) (.invalidNamespace space owner)

/-- What tells a branch of a union from the others: the kind of a primitive type or a
container, and the full name of a named type. -/
def branchKey (p : Protocol) : Schema → String
  | .primitive type => type.name
  | .array _ => "array"
  | .map _ => "map"
  | .union _ => "union"
  | .named name =>
    match p.getType? name with
    | some t => p.fullNameOf t
    | none => name

mutual

/-- Checks a schema: references stand for types and unions are well formed. -/
def checkSchema (p : Protocol) (place : Place) : Schema → Check
  | .primitive _ => .ok ()
  | .named name => require (p.hasType name) (.typeNotFound name place)
  | .array items => checkSchema p place items
  | .map values => checkSchema p place values
  | .union branches => do
    require (!branches.isEmpty) (.invalidUnion place .empty)
    checkBranches p place [] branches
termination_by structural s => s

/-- Checks the branches of a union that follow branches with the keys `seen`. -/
def checkBranches (p : Protocol) (place : Place) (seen : List String) : List Schema → Check
  | [] => .ok ()
  | branch :: branches => do
    require (!branch.isUnion) (.invalidUnion place .nested)
    let key := p.branchKey branch
    require (!seen.contains key) (.invalidUnion place (.duplicateBranch key))
    checkSchema p place branch
    checkBranches p place (key :: seen) branches
termination_by structural ss => ss

end

/-- Checks fields or parameters that follow ones with the names `seen`. -/
def checkFields (p : Protocol) (owner : FieldOwner) (seen : List String) : List Field → Check
  | [] => .ok ()
  | f :: fields => do
    require (!seen.contains f.name) (.duplicateField owner f.name)
    require (Name.isIdentifier f.name) (.invalidFieldName f.name owner)
    checkSchema p (.field f.name owner) f.schema
    checkFields p owner (f.name :: seen) fields

/-- Checks symbols that follow the symbols `seen`. -/
def checkSymbols (enum : String) (seen : List String) : List String → Check
  | [] => .ok ()
  | s :: symbols => do
    require (Name.isIdentifier s) (.invalidSymbol s enum)
    require (!seen.contains s) (.duplicateSymbol enum s)
    checkSymbols enum (s :: seen) symbols

/-- Checks what a named type consists of. -/
def checkBody (p : Protocol) (t : NamedType) : Check :=
  match t.body with
  | .record _ fields => checkFields p (.record t.name) [] fields
  | .symbols symbols => checkSymbols t.name [] symbols
  | .fixed size => require (size != 0) (.emptyFixed t.name)

/-- Checks types that follow ones with the full names `seen`. -/
def checkTypes (p : Protocol) (seen : List String) : List NamedType → Check
  | [] => .ok ()
  | t :: types => do
    let fullName := p.fullNameOf t
    require (!seen.contains fullName) (.duplicateType fullName)
    require (Name.isIdentifier t.name) (.invalidTypeName t.name)
    checkSpace t.space (.type t.name)
    checkBody p t
    checkTypes p (fullName :: seen) types

/-- Checks that the errors of a message stand for error types. -/
def checkErrors (p : Protocol) (message : String) : List String → Check
  | [] => .ok ()
  | e :: errors => do
    match p.getType? e with
    | none => throw (.typeNotFound e (.throws message))
    | some t => require t.isError (.notAnError message e)
    checkErrors p message errors

/-- Checks a message. -/
def checkMessage (p : Protocol) (m : Message) : Check := do
  require (Name.isIdentifier m.name) (.invalidMessageName m.name)
  checkFields p (.message m.name) [] m.request
  checkSchema p (.response m.name) m.response
  checkErrors p m.name m.errors
  require (!m.oneWay || (m.response.isNull && m.errors.isEmpty)) (.answeringOneWay m.name)

/-- Checks messages that follow ones with the names `seen`. -/
def checkMessages (p : Protocol) (seen : List String) : List Message → Check
  | [] => .ok ()
  | m :: messages => do
    require (!seen.contains m.name) (.duplicateMessage m.name)
    checkMessage p m
    checkMessages p (m.name :: seen) messages

/-- Checks that a protocol is well formed. -/
def validate (p : Protocol) : Check := do
  require (Name.isIdentifier p.name) (.invalidProtocolName p.name)
  checkSpace p.space (.protocol p.name)
  checkTypes p [] p.types
  checkMessages p [] p.messages

end Protocol

end IdlCompiler
