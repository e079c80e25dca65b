/-
# Text of generated code

The text of a module.  Documentation becomes outer comments line by line, and the canonical
document becomes a raw literal with as many number signs as it takes.
-/
import IdlCompiler.Target.Module

namespace IdlCompiler.Target

/-- A line with an indentation. -/
def line (indent : Nat) (text : String) : String :=
  String.ofList (List.replicate (4 * indent) ' ') ++ text ++ "\n"

/-- Lines one below the other. -/
def lines (ls : List String) : String := String.join ls

/-- An empty line. -/
def gap : String := "\n"

/-! ## Documentation -/

/-- A line of documentation as a comment. -/
def docLine (indent text : List Char) : List Char :=
  if (Text.trim text).isEmpty then indent ++ ['/', '/', '/', '\n']
  else indent ++ '/' :: '/' :: '/' :: ' ' :: Text.trimEnd text ++ ['\n']

/-- Documentation as comments, one for each line. -/
def docChars (indent : List Char) (doc : Option String) : List Char :=
  match doc with
  | none => []
  | some text => (Text.lines text.toList).flatMap (docLine indent)

/-- Documentation as comments at an indentation. -/
def docLines (indent : Nat) (doc : Option String) : String :=
  String.ofList (docChars (List.replicate (4 * indent) ' ') doc)

/-! ## Raw literals -/

/-- The longest run of number signs behind a quotation mark, given the longest one so far
and the length of the run that the text goes on, if it goes on one. -/
def longestRun (longest : Nat) : Option Nat → List Char → Nat
  | _, [] => longest
  | run, c :: cs =>
    let run := if c = '"' then some 0 else if c = '#' then run.map (· + 1) else none
    longestRun (max longest (run.getD 0)) run cs

/-- How many number signs a raw literal of a text needs. -/
def rawHashes (text : String) : Nat := longestRun 0 none text.toList + 1

/-- A raw literal of a text that ends behind `hashes` number signs. -/
def rawLiteral (hashes : Nat) (text : String) : String :=
  let signs := String.ofList (List.replicate hashes '#')
  "r" ++ signs ++ "\"" ++ text ++ "\"" ++ signs

/-- A text between quotation marks, as it is. -/
def plainLiteral (text : String) : String := "\"" ++ text ++ "\""

/-! ## Definitions -/

/-- The attribute that derives standard traits. -/
def derives (traits : String) : String := line 0 ("#[derive(" ++ traits ++ ")]")

/-- The traits of types without pointers. -/
def plainTraits : String := "Debug, Clone, Copy, PartialEq, Eq, Hash"

/-- The traits of types with data. -/
def dataTraits : String := "Debug, Clone, PartialEq"

/-- The first line of a way to show a value. -/
def displayOpening (name : String) : String :=
  lines [line 0 s!"impl std::fmt::Display for {name} \x7b",
    line 1 "fn fmt(&self, f: &mut std::fmt::Formatter<'_>) -> std::fmt::Result \x7b"]

/-- The end of a method and of its block. -/
def methodClosing : String := lines [line 1 "\x7d", line 0 "\x7d", gap]

/-- The text of an enum of symbols with its conversions. -/
def EnumDef.text (e : EnumDef) : String :=
  lines [docLines 0 e.doc,
    derives plainTraits,
    line 0 s!"pub enum {e.name} \x7b",
    lines (e.variants.map fun v => line 1 (v ++ ",")),
    line 0 "\x7d", gap,
    line 0 s!"impl {e.name} \x7b",
    line 1 "/// Symbols in declaration order.",
    line 1 ("pub const SYMBOLS: &'static [&'static str] = &["
      ++ String.intercalate ", " (e.symbols.map plainLiteral) ++ "];"), gap,
    line 1 "/// Returns the symbol as declared in the protocol.",
    line 1 "#[must_use]",
    line 1 "pub const fn as_str(&self) -> &'static str \x7b",
    line 2 "match *self \x7b",
    lines ((e.variants.zip e.symbols).map fun (v, s) =>
      line 3 ("Self::" ++ v ++ " => " ++ plainLiteral s ++ ",")),
    line 2 "\x7d",
    line 1 "\x7d", gap,
    line 1 "/// Looks up a value by its declared symbol.",
    line 1 "#[must_use]",
    line 1 "pub fn from_symbol(symbol: &str) -> Option<Self> \x7b",
    line 2 "match symbol \x7b",
    lines ((e.symbols.zip e.variants).map fun (s, v) =>
      line 3 (plainLiteral s ++ " => Some(Self::" ++ v ++ "),")),
    line 3 "_ => None,",
    line 2 "\x7d",
    methodClosing,
    displayOpening e.name,
    line 2 "f.write_str(self.as_str())",
    methodClosing]

/-- The text of a block of fixed size. -/
def FixedDef.text (d : FixedDef) : String :=
  let size := toString d.size.toNat
  lines [docLines 0 d.doc,
    derives plainTraits,
    line 0 s!"pub struct {d.name}(pub [u8; {size}]);", gap,
    line 0 s!"impl {d.name} \x7b",
    line 1 "/// Size in bytes.",
    line 1 s!"pub const SIZE: usize = {size};",
    line 0 "\x7d", gap]

/-- The text of a member of a struct. -/
def MemberDef.text (m : MemberDef) : String :=
  docLines 1 m.doc ++ line 1 ("pub " ++ m.ident ++ ": " ++ m.type.text ++ ",")

/-- The text of a struct.  An error can be shown and is an error to its users. -/
def StructDef.text (d : StructDef) : String :=
  lines [docLines 0 d.doc,
    derives dataTraits,
    if d.members.isEmpty then lines [line 0 s!"pub struct {d.name} \x7b\x7d", gap]
    else lines [line 0 s!"pub struct {d.name} \x7b",
      lines (d.members.map MemberDef.text),
      line 0 "\x7d", gap],
    if d.isError then
      lines [displayOpening d.name,
        line 2 s!"write!(f, \"{d.name}: \x7b:?\x7d\", self)",
        methodClosing,
        line 0 s!"impl std::error::Error for {d.name} \x7b\x7d", gap]
    else ""]

/-- The text of a definition with data. -/
def DataDef.text : DataDef → String
  | fixed d => d.text
  | struct d => d.text

/-- The text of a variant. -/
def Variant.text (v : Variant) : String :=
  match v.payload with
  | some type => line 1 (v.name ++ "(" ++ type.text ++ "),")
  | none => line 1 (v.name ++ ",")

/-- The text of the enum of a union. -/
def UnionDef.text (u : UnionDef) : String :=
  lines [derives dataTraits,
    line 0 s!"pub enum {u.name} \x7b",
    lines (u.variants.map Variant.text),
    line 0 "\x7d", gap]

/-- The text of the enum of a union with a line of documentation. -/
def UnionDef.documentedText (u : UnionDef) : String :=
  line 0 s!"/// Union value for \x60{u.name}\x60." ++ u.text

/-! ## Services -/

/-- The text of the error type of a service. -/
def Service.errorText (s : Service) : String :=
  lines [line 0 s!"/// Errors a \x60{s.protocol}\x60 message may return.",
    derives dataTraits,
    line 0 s!"pub enum {s.errorName} \x7b",
    lines (s.errors.map fun e => line 1 s!"{e}({e}),"),
    line 1 "/// Failure not declared by the message.",
    line 1 "Undeclared(String),",
    line 0 "\x7d", gap,
    displayOpening s.errorName,
    line 2 "match self \x7b",
    lines (s.errors.map fun e => line 3 s!"Self::{e}(e) => write!(f, \"\x7b\x7d\", e),"),
    line 3 "Self::Undeclared(message) => f.write_str(message),",
    line 2 "\x7d",
    methodClosing,
    line 0 s!"impl std::error::Error for {s.errorName} \x7b\x7d", gap,
    lines (s.errors.map fun e =>
      lines [line 0 s!"impl From<{e}> for {s.errorName} \x7b",
        line 1 s!"fn from(error: {e}) -> Self \x7b",
        line 2 s!"Self::{e}(error)",
        methodClosing])]

/-- The text of a method of a service whose error type is `errorName`. -/
def MethodDef.text (errorName : String) (m : MethodDef) : String :=
  let parameters := String.intercalate ", "
    ("&self" :: m.parameters.map fun p => p.ident ++ ": " ++ p.type.text)
  docLines 1 m.doc ++ match m.answer with
    | none => line 1 s!"fn {m.ident}({parameters});"
    | some type => line 1 s!"fn {m.ident}({parameters}) -> Result<{type.text}, {errorName}>;"

/-- The text of a service. -/
def Service.text (s : Service) : String :=
  lines [s.errorText,
    match s.doc with
    | some doc => docLines 0 (some doc)
    | none => line 0 s!"/// Messages of the \x60{s.protocol}\x60 protocol.",
    line 0 s!"pub trait {s.traitName} \x7b",
    lines (s.methods.map (MethodDef.text s.errorName)),
    line 0 "\x7d", gap,
    lines (s.unions.map UnionDef.text)]

/-! ## Modules -/

/-- The lines that say where a module comes from. -/
def Module.headerText (m : Module) : String :=
  lines [line 0 "// Generated by ironproto. Do not edit.",
    match m.space with
    | some space => line 0 s!"// Protocol: {space}.{m.protocol}"
    | none => line 0 s!"// Protocol: {m.protocol}",
    gap]

/-- The constants of a module: the name and the namespace of the protocol, and its
canonical document without the line feed at its end. -/
def Module.constantsText (m : Module) : String :=
  lines [line 0 "/// Protocol name.",
    line 0 ("pub const PROTOCOL_NAME: &str = " ++ plainLiteral m.protocol ++ ";"), gap,
    match m.space with
    | some space =>
      lines [line 0 "/// Protocol namespace.",
        line 0 ("pub const PROTOCOL_NAMESPACE: &str = " ++ plainLiteral space ++ ";"), gap]
    | none => "",
    line 0 "/// Canonical schema text this file was generated from.",
    line 0 ("pub const PROTOCOL: &str = " ++ rawLiteral (rawHashes m.canonical)
      (String.ofList (Text.trimEnd m.canonical.toList)) ++ ";"), gap]

/-- Takes line feeds from the end of a text as long as it ends with two. -/
def dropGaps : List Char → List Char
  | '\n' :: '\n' :: cs => dropGaps ('\n' :: cs)
  | cs => cs

/-- The text without empty lines at its end. -/
def withoutLastGap (text : String) : String :=
  String.ofList (dropGaps text.toList.reverse).reverse

/-- The text of a module. -/
def Module.text (m : Module) : String :=
  withoutLastGap <| lines [m.headerText, m.constantsText,
    lines (m.enums.map EnumDef.text),
    lines (m.data.map DataDef.text),
    lines (m.unions.map UnionDef.documentedText),
    match m.service with
    | some s => s.text
    | none => ""]

end IdlCompiler.Target

namespace IdlCompiler

/-- The code that is generated for a resolved protocol. -/
def Resolved.code (r : Resolved) : String := (Target.Module.ofResolved r).text

end IdlCompiler
