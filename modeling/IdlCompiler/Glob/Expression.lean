/-
# Patterns as regular expressions

A pattern that is more than a text is matched by a regular expression over bytes.  This
module writes the expression of a pattern and counts how deeply it nests, which is bounded.

Sequences, groups, branches, repetitions and classes in brackets each are one level of
nesting; characters and the marks for the start and the end are none.  A sequence of one
piece is that piece, and a class of one range is a level less deep than any other class.
Main statements: `depthOfSequence_le_iff`, pieces of a sequence nest less deeply than it
does; `Pattern.isTooDeep_of_isForName`, patterns for last names do not nest too deeply.
-/
import IdlCompiler.Glob.Basic

namespace IdlCompiler.Glob

/-! ## Text -/

/-- The characters that stand for themselves only behind a backslash. -/
def metaCharacters : List Char := "\\.+*?()|[]\x7b\x7d^$#&-~".toList

/-- A byte as an expression: in hexadecimal digits unless it is a character of ASCII. -/
def byteText (byte : UInt8) : String :=
  let c := Char.ofNat byte.toNat
  if 0x80 ≤ byte then "\\x" ++ String.ofList (Nat.toDigits 16 byte.toNat)
  else if metaCharacters.contains c then "\\" ++ c.toString
  else c.toString

/-- A character as an expression. -/
def characterText (c : Char) : String := String.join ((bytesOf c).map byteText)

/-- A range of a class as an expression. -/
def rangeText (range : Char × Char) : String :=
  if range.1 = range.2 then characterText range.1
  else characterText range.1 ++ "-" ++ characterText range.2

mutual

/-- The expression of a part. -/
def Part.expression : Part → String
  | .literal c => characterText c
  | .anyByte => "[^/]"
  | .anyRun => "[^/]*"
  | .leadingDirectories => "(?:/?|.*/)"
  | .everythingBelow => "/.*"
  | .innerDirectories => "(?:/|/.*/)"
  | .oneOf negated ranges =>
    (if negated then "[^" else "[") ++ String.join (ranges.map rangeText) ++ "]"
  | .alternatives branches => match branchExpressions branches with
    | [] => ""
    | texts => "(?:" ++ "|".intercalate texts ++ ")"
termination_by structural p => p

/-- The expression of parts one after the other. -/
def expressionOf : List Part → String
  | [] => ""
  | p :: ps => p.expression ++ expressionOf ps
termination_by structural ps => ps

/-- The expressions of the patterns that have a part. -/
def branchExpressions : List (List Part) → List String
  | [] => []
  | ps :: pss =>
    if isVoid ps then branchExpressions pss else expressionOf ps :: branchExpressions pss
termination_by structural pss => pss

end

/-- The expression of a pattern, which matches whole texts of bytes. -/
def Pattern.expression (pattern : Pattern) : String :=
  let text := match pattern with
    | [.leadingDirectories] => ".*"
    | _ => expressionOf pattern
  "(?-u)^" ++ text ++ "$"

/-! ## Nesting -/

/-- How deeply a sequence nests, by the depths of its pieces. -/
def depthOfSequence : List Nat → Nat
  | [] => 0
  | [d] => d
  | depths => depths.max?.getD 0 + 1

/-- How many ranges of bytes a range of characters is made of. -/
def pieceCount (range : Char × Char) : Nat :=
  if range.1 = range.2 then (bytesOf range.1).length
  else (bytesOf range.1).length + (bytesOf range.2).length - 1

/-- How many ranges of bytes the ranges of a class are made of. -/
def pieceTotal : List (Char × Char) → Nat
  | [] => 0
  | range :: ranges => pieceCount range + pieceTotal ranges

mutual

/-- The depths of the pieces of expression that a part is made of. -/
def Part.depths : Part → List Nat
  | .literal c => (bytesOf c).map fun _ => 0
  | .anyByte => [1]
  | .anyRun => [2]
  | .leadingDirectories | .innerDirectories => [4]
  | .everythingBelow => [0, 1]
  | .oneOf _ ranges => [if 1 < pieceTotal ranges then 2 else 1]
  | .alternatives branches => match branchDepths branches with
    | [] => []
    | depths => [depthOfSequence depths + 1]
termination_by structural p => p

/-- The depths of the pieces of expression that parts one after the other are made of. -/
def depthsOf : List Part → List Nat
  | [] => []
  | p :: ps => p.depths ++ depthsOf ps
termination_by structural ps => ps

/-- The depths of the patterns that have a part. -/
def branchDepths : List (List Part) → List Nat
  | [] => []
  | ps :: pss =>
    if isVoid ps then branchDepths pss
    else depthOfSequence (depthsOf ps) :: branchDepths pss
termination_by structural pss => pss

end

/-- How deeply the expression of a pattern nests.  The marks for the start and the end make
it a sequence. -/
def Pattern.depth (pattern : Pattern) : Nat :=
  let depths := match pattern with
    | [.leadingDirectories] => [1]
    | _ => depthsOf pattern
  depthOfSequence ([0, 0] ++ depths)

/-- How deeply an expression may nest. -/
def maxDepth : Nat := 250

/-- Tells whether the expression of a pattern nests too deeply. -/
def Pattern.isTooDeep (pattern : Pattern) : Bool := maxDepth < pattern.depth

/-! ## Which patterns need an expression -/

/-- How a pattern is matched. -/
inductive Method where
  /-- By comparing texts. -/
  | comparison
  /-- By an expression of its own, for the files with the extension that it ends with. -/
  | ownExpression
  /-- By an expression for the last names of paths, together with all others of this kind. -/
  | nameExpression
  /-- By an expression for whole paths, together with all others of this kind. -/
  | jointExpression
deriving DecidableEq, Repr

/-- The character that a part stands for. -/
def Part.literal? : Part → Option Char
  | .literal c => some c
  | _ => none

/-- Tells whether all parts are characters for which a test holds. -/
def areLiterals (p : Char → Bool) (parts : List Part) : Bool :=
  parts.all fun part => part.literal?.any p

/-- Tells whether comparing texts is enough for a pattern. -/
def Pattern.isComparison (pattern : Pattern) : Bool :=
  match pattern with
  | [.leadingDirectories] => false
  | .leadingDirectories :: .anyRun :: .literal '.' :: rest =>
    areLiterals (fun c => c ≠ '.' ∧ c ≠ '/') rest
  | .leadingDirectories :: rest => areLiterals (fun _ => true) rest
  | _ => areLiterals (fun _ => true) pattern
    || (pattern matches _ :: _) && areLiterals (fun _ => true) pattern.dropLast
      && pattern.getLast? matches some .everythingBelow

/-- Tells whether parts in reverse order end with an extension. -/
def startsWithExtension : List Part → Bool
  | .literal c :: rest => c ≠ '/' && (c = '.' || startsWithExtension rest)
  | _ => false

/-- Tells whether a part stands for one name of a path or a piece of one.  Such a part
matches no slash.  Alternatives are not looked into. -/
def Part.staysInName : Part → Bool
  | .literal c => c ≠ '/'
  | .anyByte | .anyRun => true
  | .oneOf negated ranges => !inClass negated ranges slash
  | .leadingDirectories | .everythingBelow | .innerDirectories | .alternatives _ => false

/-- Tells whether the last name of a path is enough to match a pattern. -/
def Pattern.isForName (pattern : Pattern) : Bool :=
  match pattern with
  | .leadingDirectories :: rest => !rest.isEmpty && rest.all Part.staysInName
  | _ => false

/-- How a pattern is matched. -/
def Pattern.method (pattern : Pattern) : Method :=
  if pattern.isComparison then .comparison
  else if startsWithExtension pattern.reverse then .ownExpression
  else if pattern.isForName then .nameExpression
  else .jointExpression

/-! ## Small laws -/

/-- A sequence of two or more pieces nests one level deeper than each of them. -/
theorem depthOfSequence_le_iff {n d e : Nat} {depths : List Nat} :
    depthOfSequence (d :: e :: depths) ≤ n + 1 ↔ ∀ f ∈ d :: e :: depths, f ≤ n := by
  rcases h : (d :: e :: depths).max? with _ | m
  · simp at h
  · simp only [depthOfSequence, h, Option.getD_some, Nat.add_le_add_iff_right]
    exact List.max?_le_iff h

/-- A sequence nests at most one level deeper than its pieces. -/
theorem depthOfSequence_le {n : Nat} {depths : List Nat} (h : ∀ d ∈ depths, d ≤ n) :
    depthOfSequence depths ≤ n + 1 := by
  match depths with
  | [] => exact Nat.zero_le _
  | [d] => exact Nat.le_succ_of_le (h d (by simp))
  | _ :: _ :: _ => exact depthOfSequence_le_iff.mpr h

theorem Part.depth_le_of_staysInName {part : Part} (h : part.staysInName) :
    ∀ d ∈ part.depths, d ≤ 4 := by
  cases part <;> simp_all [Part.staysInName, Part.depths]
  split <;> omega

theorem depth_le_of_staysInName {parts : List Part} (h : parts.all Part.staysInName) :
    ∀ d ∈ depthsOf parts, d ≤ 4 := by
  induction parts with
  | nil => simp [depthsOf]
  | cons p ps ih =>
    simp only [List.all_cons, Bool.and_eq_true] at h
    simp only [depthsOf, List.mem_append]
    rintro d (hd | hd)
    · exact Part.depth_le_of_staysInName h.1 d hd
    · exact ih h.2 d hd

/-- The expression of a pattern for last names has no groups, so it never nests too deeply. -/
theorem Pattern.isTooDeep_of_isForName {pattern : Pattern} (h : pattern.isForName) :
    pattern.isTooDeep = false := by
  unfold Pattern.isForName at h
  split at h
  case h_2 => contradiction
  case h_1 rest =>
    simp only [Bool.and_eq_true] at h
    have hrest := depth_le_of_staysInName h.2
    have hdepth : Pattern.depth (.leadingDirectories :: rest) ≤ 5 := by
      unfold Pattern.depth
      apply depthOfSequence_le
      split
      · simp
      · simpa [depthsOf, Part.depths] using hrest
    exact decide_eq_false (by simp only [maxDepth]; omega)

end IdlCompiler.Glob
