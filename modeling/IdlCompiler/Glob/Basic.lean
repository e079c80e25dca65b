/-
# Glob patterns

A pattern is a sequence of parts, and a part matches some of the bytes that a text starts
with.  `Part.rests` gives every text that may be left behind a part, so that a pattern
matches a text if one of the texts left behind all its parts is empty.

The stars that cross directories are parts of their own: `**/` at the start, `/**` at the
end and `/**/` between.  All other stars and the question mark stay inside a directory.  A
class matches a single byte, which may be a slash.
-/

namespace IdlCompiler.Glob

/-- A part of a pattern. -/
inductive Part where
  /-- The character itself. -/
  | literal (c : Char)
  /-- One byte that is no slash. -/
  | anyByte
  /-- Bytes that are no slashes. -/
  | anyRun
  /-- Any number of directories at the start. -/
  | leadingDirectories
  /-- Something behind a slash at the end. -/
  | everythingBelow
  /-- A slash, or any number of directories between slashes. -/
  | innerDirectories
  /-- One byte of a class of characters, or none of it. -/
  | oneOf (negated : Bool) (ranges : List (Char × Char))
  /-- One of several patterns. -/
  | alternatives (branches : List (List Part))
deriving Repr, Inhabited

/-- A pattern. -/
abbrev Pattern := List Part

/-- The byte of a slash. -/
def slash : UInt8 := 47

/-- The bytes of a character. -/
def bytesOf (c : Char) : List UInt8 := (String.singleton c).toUTF8.toList

/-- Tells whether a byte belongs to a range of characters.  A range of characters of
several bytes stands for the bytes of both and all bytes from the last one of the first to
the first one of the last. -/
def inRange (byte : UInt8) (range : Char × Char) : Bool :=
  let first := bytesOf range.1
  let last := bytesOf range.2
  first.contains byte || last.contains byte
    || (range.1 != range.2 && first.getLastD 0 ≤ byte && byte ≤ last.headD 0)

/-- Tells whether a byte belongs to a class. -/
def inClass (negated : Bool) (ranges : List (Char × Char)) (byte : UInt8) : Bool :=
  ranges.any (inRange byte) != negated

/-- The text behind given bytes, if it starts with them. -/
def restAfter? : List UInt8 → List UInt8 → Option (List UInt8)
  | [], text => some text
  | _ :: _, [] => none
  | b :: bs, c :: cs => if b = c then restAfter? bs cs else none

/-- Every text behind some bytes of a class, none included. -/
def restsWhile (p : UInt8 → Bool) : List UInt8 → List (List UInt8)
  | [] => [[]]
  | b :: bs => if p b then (b :: bs) :: restsWhile p bs else [b :: bs]

/-- Every text behind a slash. -/
def restsAfterSlash : List UInt8 → List (List UInt8)
  | [] => []
  | b :: bs => if b = slash then bs :: restsAfterSlash bs else restsAfterSlash bs

/-- The text behind a slash that it starts with. -/
def restAfterSlash? : List UInt8 → Option (List UInt8)
  | [] => none
  | b :: bs => if b = slash then some bs else none

mutual

/-- Tells whether a part consists of empty alternatives only.  Such a part is no part. -/
def Part.isVoid : Part → Bool
  | .alternatives branches => areVoid branches
  | _ => false
termination_by structural p => p

/-- Tells whether a pattern has no part. -/
def isVoid : List Part → Bool
  | [] => true
  | p :: ps => p.isVoid && isVoid ps
termination_by structural ps => ps

/-- Tells whether no pattern of a list has a part. -/
def areVoid : List (List Part) → Bool
  | [] => true
  | ps :: pss => isVoid ps && areVoid pss
termination_by structural pss => pss

end

mutual

/-- Every text that may be left behind a part. -/
def Part.rests (text : List UInt8) : Part → List (List UInt8)
  | .literal c => (restAfter? (bytesOf c) text).toList
  | .anyByte => match text with
    | [] => []
    | b :: bs => if b = slash then [] else [bs]
  | .anyRun => restsWhile (· != slash) text
  | .leadingDirectories => text :: restsAfterSlash text
  | .everythingBelow => match restAfterSlash? text with
    | none => []
    | some rest => restsWhile (fun _ => true) rest
  | .innerDirectories => match restAfterSlash? text with
    | none => []
    | some rest => rest :: restsAfterSlash rest
  | .oneOf negated ranges => match text with
    | [] => []
    | b :: bs => if inClass negated ranges b then [bs] else []
  | .alternatives branches =>
    if areVoid branches then [text] else restsOfAny text branches
termination_by structural p => p

/-- Every text that may be left behind all parts of a pattern when one of several texts
stands before them.  No text is kept twice on the way. -/
def rests (texts : List (List UInt8)) : List Part → List (List UInt8)
  | [] => texts
  | p :: ps => rests (texts.flatMap fun text => p.rests text).eraseDups ps
termination_by structural ps => ps

/-- Every text that may be left behind one of the patterns that have a part. -/
def restsOfAny (text : List UInt8) : List (List Part) → List (List UInt8)
  | [] => []
  | ps :: pss =>
    (if isVoid ps then [] else rests [text] ps) ++ restsOfAny text pss
termination_by structural pss => pss

end

/-- Tells whether a pattern matches a whole text.  A pattern of leading directories alone
matches everything. -/
def Pattern.matchesBytes (pattern : Pattern) (text : List UInt8) : Bool :=
  match pattern with
  | [.leadingDirectories] => true
  | _ => (rests [text] pattern).contains []

/-- Tells whether a pattern matches a path whose parts are joined by slashes. -/
def Pattern.isMatch (pattern : Pattern) (path : String) : Bool :=
  pattern.matchesBytes path.toUTF8.toList

end IdlCompiler.Glob
