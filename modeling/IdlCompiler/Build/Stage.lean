/-
# Stages

A source enters the build at one of two stages: an interface definition is lowered to a
canonical schema first, and everything else is taken for a canonical schema.  A schema
made by lowering has the path of its source with another extension.
-/
import IdlCompiler.FileTree.Path

namespace IdlCompiler.Build

/-- Where a source enters the build. -/
inductive Stage where
  | interfaceDefinition
  | canonicalSchema
deriving DecidableEq, Repr

namespace Stage

/-- The extension of interface definitions. -/
def definitionExtension : String := "idl"

/-- The extension of canonical schemas. -/
def schemaExtension : String := "schema"

/-- The stage of a source, by the extension of its path. -/
def ofPath (path : String) : Stage :=
  if Path.extension? path = some definitionExtension then interfaceDefinition
  else canonicalSchema

/-- Tells whether sources of a stage have to be lowered. -/
def needsLowering (stage : Stage) : Bool := stage = interfaceDefinition

/-- The name of a stage. -/
def name : Stage → String
  | interfaceDefinition => "interface-definition"
  | canonicalSchema => "canonical-schema"

end Stage

/-- The file name that the schema of a lowered file has. -/
def loweredName (name : List Char) : List Char :=
  (Path.divideName name).1 ++ '.' :: Stage.schemaExtension.toList

/-- The relative path that the schema of a lowered file has. -/
def loweredPath (path : String) : String :=
  let cs := path.toList
  String.ofList <| match Text.splitLast? '/' cs with
    | some (directory, name) => directory ++ '/' :: loweredName name
    | none => loweredName cs

end IdlCompiler.Build
