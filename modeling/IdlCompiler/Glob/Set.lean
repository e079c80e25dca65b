/-
# Sets of patterns

Several patterns are read and used together.  A set is refused if one of its patterns is
malformed or nests too deeply.  The patterns with an expression of their own are looked at
before those that share one for whole paths.  Patterns for the last name of a path have no
groups, so that none of them nests too deeply.  Main statement: `anyMatch_iff`.
-/
import IdlCompiler.Glob.Expression
import IdlCompiler.Glob.Parser

namespace IdlCompiler.Glob

/-- Why texts are no set of patterns. -/
inductive SetError where
  /-- A text is no pattern. -/
  | malformed (error : Error)
  /-- A pattern that is matched by an expression of its own nests too deeply. -/
  | tooDeepAlone (globs : List String) (expression : String)
  /-- A pattern nests too deeply; it has this position among those that share an
  expression for whole paths. -/
  | tooDeep (globs : List String) (position : Nat)
deriving DecidableEq, Repr

namespace SetError

/-- The text that is refused: a pattern, or all of a set. -/
def subject : SetError → String
  | malformed error => error.glob
  | tooDeepAlone globs _ | tooDeep globs _ => ", ".intercalate globs

/-- The wording of an error. -/
def message : SetError → String
  | malformed error => error.message
  | tooDeepAlone _ expression =>
    "error parsing glob '" ++ expression ++ "': error parsing pattern 0"
  | tooDeep _ position => "error parsing pattern " ++ toString position

end SetError

/-- The error of a set that nests too deeply. -/
def findTooDeep? (globs : List String) (patterns : List Pattern) : Option SetError :=
  let alone := patterns.filter fun pattern => pattern.method = .ownExpression
  let joint := patterns.filter fun pattern => pattern.method = .jointExpression
  match alone.find? Pattern.isTooDeep, joint.findIdx? Pattern.isTooDeep with
  | some pattern, _ => some (.tooDeepAlone globs pattern.expression)
  | none, some position => some (.tooDeep globs position)
  | none, none => none

/-- Reads a list of texts as patterns.  Blanks around a pattern do not belong to it, and
blank patterns are left out. -/
def readAll (globs : List String) : Except SetError (List Pattern) := do
  let trimmed := globs.map fun glob => Text.trim glob.toList
  let present := trimmed.filter fun cs => !cs.isEmpty
  let patterns ← (present.mapM fun cs => Pattern.ofText (String.ofList cs)).mapError .malformed
  match findTooDeep? globs patterns with
  | some error => throw error
  | none => return patterns

/-- Tells whether one of the patterns matches a path. -/
def anyMatch (patterns : List Pattern) (path : String) : Bool :=
  patterns.any fun pattern => pattern.isMatch path

theorem anyMatch_iff {patterns : List Pattern} {path : String} :
    anyMatch patterns path ↔ ∃ pattern ∈ patterns, pattern.isMatch path := by
  simp [anyMatch]

end IdlCompiler.Glob
