/-
# Flaws of a protocol

Why a protocol is not well formed, with the place of the flaw.
-/
import IdlCompiler.Protocol.Basic

namespace IdlCompiler

/-- What has fields: a record or error, or the request of a message. -/
inductive FieldOwner where
  | record (name : String)
  | message (name : String)
deriving DecidableEq, Repr

/-- The wording of an owner. -/
def FieldOwner.text : FieldOwner → String
  | record name => s!"record '{name}'"
  | message name => s!"message '{name}'"

/-- Where a schema or a reference stands. -/
inductive Place where
  | field (name : String) (owner : FieldOwner)
  | response (message : String)
  | throws (message : String)
deriving DecidableEq, Repr

/-- The wording of a place. -/
def Place.text : Place → String
  | field name owner => s!"field '{name}' of " ++ owner.text
  | response message => "response of " ++ (FieldOwner.message message).text
  | throws message => "throws of " ++ (FieldOwner.message message).text

/-- What is wrong with a union. -/
inductive UnionFlaw where
  | empty
  | nested
  | duplicateBranch (key : String)
deriving DecidableEq, Repr

/-- The wording of what is wrong with a union. -/
def UnionFlaw.text : UnionFlaw → String
  | empty => "union has no branches"
  | nested => "unions may not directly contain unions"
  | duplicateBranch key => s!"duplicate branch '{key}'"

/-- What gives itself a namespace. -/
inductive SpaceOwner where
  | protocol (name : String)
  | type (name : String)
deriving DecidableEq, Repr

/-- The wording of what gives itself a namespace. -/
def SpaceOwner.text : SpaceOwner → String
  | protocol name => s!"protocol '{name}'"
  | type name => s!"type '{name}'"

/-- Why a protocol is not well formed. -/
inductive Flaw where
  | typeNotFound (reference : String) (place : Place)
  | duplicateType (fullName : String)
  | duplicateField (owner : FieldOwner) (name : String)
  | duplicateSymbol (enum symbol : String)
  | duplicateMessage (name : String)
  | notAnError (message reference : String)
  | invalidUnion (place : Place) (flaw : UnionFlaw)
  | invalidProtocolName (name : String)
  | invalidTypeName (name : String)
  | invalidFieldName (name : String) (owner : FieldOwner)
  | invalidSymbol (symbol enum : String)
  | invalidMessageName (name : String)
  | invalidNamespace (space : String) (owner : SpaceOwner)
  | emptyFixed (name : String)
  | answeringOneWay (message : String)
deriving DecidableEq, Repr

namespace Flaw

/-- The wording of a duplicate. -/
def duplicateText (kind name : String) : String := s!"duplicate {kind} definition: '{name}'"

/-- The wording of a flaw. -/
def message : Flaw → String
  | typeNotFound reference place => s!"type '{reference}' referenced in {place.text} not found"
  | duplicateType fullName => duplicateText "type" fullName
  | duplicateField owner name => duplicateText "field" (owner.text ++ "." ++ name)
  | duplicateSymbol enum symbol => duplicateText "enum symbol" (enum ++ "." ++ symbol)
  | duplicateMessage name => duplicateText "message" name
  | notAnError message reference =>
    s!"message '{message}' throws '{reference}', which is not an error type"
  | invalidUnion place flaw => s!"invalid union in {place.text}: {flaw.text}"
  | invalidProtocolName name => s!"validation error: invalid protocol name '{name}'"
  | invalidTypeName name => s!"validation error: invalid type name '{name}'"
  | invalidFieldName name owner =>
    s!"validation error: invalid field name '{name}' in {owner.text}"
  | invalidSymbol symbol enum => s!"validation error: invalid symbol '{symbol}' in enum '{enum}'"
  | invalidMessageName name => s!"validation error: invalid message name '{name}'"
  | invalidNamespace space owner =>
    s!"validation error: invalid namespace '{space}' on {owner.text}"
  | emptyFixed name => s!"validation error: fixed '{name}' must have a non-zero size"
  | answeringOneWay message =>
    s!"validation error: one-way message '{message}' must return void and declare no errors"

end Flaw

end IdlCompiler
