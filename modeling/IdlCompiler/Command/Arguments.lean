/-
# Arguments of the command line

The arguments are read from left to right: first settings of the program, then the name of
a command, then settings and operands of the command.  A setting has a long form, and it
may have a short one; short ones can be joined.  A value follows its setting as the next
argument, behind an equals sign, or directly behind a short form.  Behind `--` there are
operands only.
-/
import IdlCompiler.Text.Blank

namespace IdlCompiler.Command

/-- What can be set. -/
inductive Setting where
  | verbose
  | version
  | help
  | sourceDirectory
  | outputDirectory
  | includeGlob
  | excludeGlob
  | workspaceRoot
  | outputFile
deriving DecidableEq, Repr

namespace Setting

/-- The long form, without its hyphens. -/
def long : Setting → String
  | verbose => "verbose"
  | version => "version"
  | help => "help"
  | sourceDirectory => "source-dir"
  | outputDirectory => "output-dir"
  | includeGlob => "include"
  | excludeGlob => "exclude"
  | workspaceRoot => "workspace-root"
  | outputFile => "output"

/-- The short form, without its hyphen. -/
def short? : Setting → Option Char
  | verbose => some 'v'
  | version => some 'V'
  | help => some 'h'
  | outputFile => some 'o'
  | _ => none

/-- Tells whether a setting has no value. -/
def isFlag : Setting → Bool
  | verbose | version | help => true
  | _ => false

/-- Tells whether a setting is a pattern.  Patterns may be given many times and may be
empty; everything else is given once, and its value is a path. -/
def isPattern : Setting → Bool
  | includeGlob | excludeGlob => true
  | _ => false

end Setting

/-- Why the arguments are not read to their end. -/
inductive Stop where
  /-- The version is asked for. -/
  | version
  /-- Help is asked for. -/
  | help
  /-- The arguments are not understood. -/
  | misuse
deriving DecidableEq, Repr

/-- What arguments are understood at a place. -/
structure Level where
  settings : List Setting
  /-- How many operands there may be. -/
  operands : Nat
  /-- Tells whether an operand is the name of a command, with all that follows it. -/
  hasCommands : Bool
deriving Repr

/-- What has been read. -/
structure Given where
  settings : List (Setting × String) := []
  operands : List String := []
deriving Repr

namespace Given

/-- Adds a setting with its value, which is empty for a flag. -/
def add (given : Given) (s : Setting) (value : String) : Except Stop Given :=
  if s = .version then .error .version
  else if s = .help then .error .help
  else if !s.isPattern && given.settings.any (fun entry => entry.1 = s) then .error .misuse
  else if !s.isPattern && !s.isFlag && value = "" then .error .misuse
  else .ok { given with settings := given.settings ++ [(s, value)] }

/-- Adds an operand, which is a path. -/
def addOperand (level : Level) (given : Given) (operand : String) : Except Stop Given :=
  if operand = "" || level.operands ≤ given.operands.length then .error .misuse
  else .ok { given with operands := given.operands ++ [operand] }

/-- The values of a setting in order. -/
def values (given : Given) (s : Setting) : List String :=
  (given.settings.filter fun entry => entry.1 = s).map Prod.snd

/-- The first value of a setting. -/
def value? (given : Given) (s : Setting) : Option String := (given.values s).head?

end Given

/-- Reads short forms that are joined.  Gives the setting that waits for its value in the
next argument, if one does. -/
def readShort (level : Level) (given : Given) : List Char → Except Stop (Given × Option Setting)
  | [] => .ok (given, none)
  | c :: cs =>
    match level.settings.find? fun s => s.short? = some c with
    | none => .error .misuse
    | some s =>
      if s.isFlag then do
        let given ← given.add s ""
        readShort level given cs
      else match cs with
        | [] => .ok (given, some s)
        | '=' :: value | value => do return (← given.add s (String.ofList value), none)

/-- Reads a long form, and a value behind an equals sign. -/
def readLong (level : Level) (given : Given) (cs : List Char) :
    Except Stop (Given × Option Setting) :=
  let (name, rest) := Text.cut (· ≠ '=') cs
  match level.settings.find? fun s => s.long.toList = name, rest with
  | none, _ => .error .misuse
  | some s, [] => if s.isFlag then do return (← given.add s "", none) else .ok (given, some s)
  | some s, _ :: value =>
    if s.isFlag then .error .misuse else do return (← given.add s (String.ofList value), none)

/-- Reads the arguments of a level, where `waiting` is the setting that the next argument is
the value of.  Gives back the arguments from the name of a command on. -/
def readArguments (level : Level) :
    (waiting : Option Setting) → Given → List String → Except Stop (Given × List String)
  | none, given, [] => .ok (given, [])
  | some _, _, [] => .error .misuse
  | some s, given, argument :: rest =>
    match argument.toList with
    | '-' :: _ :: _ => .error .misuse
    | _ => do readArguments level none (← given.add s argument) rest
  | none, given, argument :: rest =>
    match argument.toList with
    | ['-', '-'] => do return (← rest.foldlM (Given.addOperand level) given, [])
    | '-' :: '-' :: cs => do
      let (given, waiting) ← readLong level given cs
      readArguments level waiting given rest
    | '-' :: c :: cs => do
      let (given, waiting) ← readShort level given (c :: cs)
      readArguments level waiting given rest
    | _ =>
      if level.hasCommands then .ok (given, argument :: rest)
      else do readArguments level none (← given.addOperand level argument) rest

end IdlCompiler.Command
