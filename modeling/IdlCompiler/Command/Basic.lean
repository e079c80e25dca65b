/-
# Commands

The program compiles every source below a directory, or lowers a single interface
definition.  A command is work that ends with an exit code and the texts of both outputs.
-/
import IdlCompiler.Build.Run
import IdlCompiler.Command.Arguments

namespace IdlCompiler

/-- What the program is asked to do. -/
inductive Command where
  /-- Compile the sources below a directory. -/
  | compile (source output : String) (selection : Build.Selection)
    (workspaceRoot : Option String)
  /-- Lower an interface definition, into a file or to the standard output. -/
  | lower (file : String) (output : Option String)
deriving Repr

namespace Command

/-- The name of the program. -/
def programName : String := "ironproto"

/-- The version of the program. -/
def programVersion : String := "0.1.0"

/-- What is understood in front of the name of a command. -/
def topLevel : Level :=
  { settings := [.verbose, .version, .help], operands := 0, hasCommands := true }

/-- What is understood by the command that compiles. -/
def compileLevel : Level where
  settings := [.verbose, .help, .sourceDirectory, .outputDirectory, .includeGlob, .excludeGlob,
    .workspaceRoot]
  operands := 0
  hasCommands := false

/-- What is understood by the command that lowers. -/
def lowerLevel : Level :=
  { settings := [.verbose, .help, .outputFile], operands := 1, hasCommands := false }

/-- Reads the arguments of the command that compiles. -/
def readCompile (arguments : List String) : Except Stop Command := do
  let (given, _) ← readArguments compileLevel none {} arguments
  return .compile ((given.value? .sourceDirectory).getD Build.defaultSource)
    ((given.value? .outputDirectory).getD Build.defaultOutput)
    { includes := given.values .includeGlob, excludes := given.values .excludeGlob }
    (given.value? .workspaceRoot)

/-- Reads the arguments of the command that lowers. -/
def readLower (arguments : List String) : Except Stop Command := do
  let (given, _) ← readArguments lowerLevel none {} arguments
  match given.operands with
  | [file] => return .lower file (given.value? .outputFile)
  | _ => throw .misuse

/-- Reads the arguments of the program. -/
def ofArguments (arguments : List String) : Except Stop Command := do
  match ← readArguments topLevel none {} arguments with
  | (_, "compile" :: rest) => readCompile rest
  | (_, "lower" :: rest) => readLower rest
  | (_, ["help"]) | (_, ["help", "compile"]) | (_, ["help", "lower"]) => throw .help
  | _ => throw .misuse

/-! ## Results -/

/-- How the program ends. -/
structure Exit where
  code : Nat
  output : String := ""
  errors : String := ""
deriving DecidableEq, Repr

/-- A text of several lines behind a label; its further lines are set in. -/
def labelled (label indent text : String) : String :=
  label ++ ("\n" ++ indent).intercalate (text.splitOn "\n")

/-- The lines that name causes, with numbers if there are several. -/
def causeLines : List String → List String
  | [] => []
  | [cause] => [labelled "    " "    " cause]
  | causes => causes.zipIdx.map fun (cause, n) =>
    let number := toString n
    labelled ("".pushn ' ' (5 - number.length) ++ number ++ ": ") "       " cause

/-- The report of an error: what the program was doing, and the causes, outermost first. -/
def errorReport (doing : String) (causes : List String) : String :=
  let reasons := match causes with
    | [] => ""
    | _ => "\n\nCaused by:\n" ++ "\n".intercalate (causeLines causes)
  "Error: " ++ doing ++ reasons ++ "\n"

/-- The end after an error. -/
def failed (doing : String) (causes : List String) : Exit :=
  { code := 1, errors := errorReport doing causes }

/-- A short text on how to call the program. -/
def usage : String :=
  s!"Usage: {programName} [-v] compile [--source-dir DIR] [--output-dir DIR]\n" ++
  "           [--include GLOB]... [--exclude GLOB]... [--workspace-root DIR]\n" ++
  s!"       {programName} [-v] lower FILE [-o FILE]\n"

/-- The end without a command. -/
def stopped : Stop → Exit
  | .version => { code := 0, output := s!"{programName} {programVersion}\n" }
  | .help => { code := 0, output := usage }
  | .misuse => { code := 2, errors := usage }

/-- Compiles sources. -/
def performCompile (plan : Build.Plan) : Work Exit := do
  match ← (Build.run plan).outcome with
  | .ok _ => return { code := 0 }
  | .error e => return failed s!"compiling protocols in {plan.source}" e.chain

/-- Lowers an interface definition. -/
def performLower (file : String) (output : Option String) : Work Exit := do
  match ← (Protocol.ofIdlFile file).outcome with
  | .error e => return failed s!"lowering {file}" e.chain
  | .ok p =>
    match output with
    | none => return { code := 0, output := p.canonicalText }
    | some path =>
      match ← Work.writeText path p.canonicalText with
      | .ok () => return { code := 0 }
      | .error e => return failed s!"writing {path}" [e.message]

/-- Performs a command.  Workspaces are made in `workspaceRoot` if the command names no
other directory. -/
def perform (workspaceRoot : String) : Command → Work Exit
  | compile source output selection root =>
    performCompile { source, output, selection, workspaceRoot := root.getD workspaceRoot }
  | lower file output => performLower file output

/-- The directory for workspaces in a directory for temporary files. -/
def workspaceRootIn (temporary : String) : String := Path.join temporary programName

/-- The whole program, run on its arguments. -/
def program (workspaceRoot : String) (arguments : List String) : Work Exit :=
  match ofArguments arguments with
  | .error stop => return stopped stop
  | .ok command => perform workspaceRoot command

end Command

end IdlCompiler
