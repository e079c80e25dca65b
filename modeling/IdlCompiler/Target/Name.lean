/-
# Names in generated code

How the names of a protocol are spelled in generated code: fields, parameters and methods
with small letters and underscores, types and variants with capitals.
-/
import IdlCompiler.Text.UpperCase

namespace IdlCompiler.Target.Name

/-- Spells a name with underscores before the capitals that follow a small letter or a
digit, and all letters of ASCII small.  `afterSmall` tells whether such a character stands
before. -/
def snakeChars (afterSmall : Bool) : List Char → List Char
  | [] => []
  | c :: cs =>
    if Text.isUpperCase c then
      if afterSmall then '_' :: c.toLower :: snakeChars false cs
      else c.toLower :: snakeChars false cs
    else c :: snakeChars (c.isLower || c.isDigit) cs

/-- A name with underscores between its words. -/
def snakeCase (name : String) : String := String.ofList (snakeChars false name.toList)

/-- Spells a name without underscores and hyphens; the character behind one is made a
capital, and so is the first one if `wordStart` holds. -/
def pascalChars (wordStart : Bool) : List Char → List Char
  | [] => []
  | c :: cs =>
    if c = '_' || c = '-' then pascalChars true cs
    else (if wordStart then c.toUpper else c) :: pascalChars false cs

/-- A name with a capital at the start of each word. -/
def pascalCase (name : String) : String := String.ofList (pascalChars true name.toList)

/-- The variant of a symbol.  A symbol without small letters is read as words in capitals. -/
def variantName (symbol : String) : String :=
  let cs := symbol.toList
  String.ofList (pascalChars true (if cs.any Char.isLower then cs else cs.map Char.toLower))

/-- The words that no identifier of generated code may be. -/
def keywords : List String := [
  "as", "async", "await", "break", "const", "continue", "crate", "dyn", "else", "enum",
  "extern", "false", "fn", "for", "gen", "if", "impl", "in", "let", "loop", "match", "mod",
  "move", "mut", "pub", "ref", "return", "static", "struct", "trait", "true", "type",
  "unsafe", "use", "where", "while", "abstract", "become", "box", "do", "final", "macro",
  "override", "priv", "try", "typeof", "unsized", "virtual", "yield"]

/-- The words that have no raw form. -/
def pathWords : List String := ["self", "super", "crate", "Self"]

/-- The identifier of a field, a parameter or a method.  A keyword is written raw, or with
an underscore behind it if it has no raw form. -/
def fieldIdent (name : String) : String :=
  let snake := snakeCase name
  if pathWords.contains snake then snake ++ "_"
  else if keywords.contains snake then "r#" ++ snake
  else snake

end IdlCompiler.Target.Name
