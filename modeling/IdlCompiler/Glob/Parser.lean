/-
# Reading glob patterns

A pattern is read from left to right.  Braces may nest; the reader keeps the groups that
are open, each with its finished branches and the parts before it.
-/
import IdlCompiler.Glob.Basic
import IdlCompiler.Text.Blank

namespace IdlCompiler.Glob

/-- Why a text is no pattern. -/
inductive Fault where
  | unclosedClass
  | invalidRange (first last : Char)
  | unclosedGroup
  | unopenedGroup
  | danglingEscape
deriving DecidableEq, Repr

/-- The wording of a fault. -/
def Fault.text : Fault → String
  | unclosedClass => "unclosed character class; missing ']'"
  | invalidRange first last =>
    "invalid range; '" ++ first.toString ++ "' > '" ++ last.toString ++ "'"
  | unclosedGroup =>
    "unclosed alternate group; missing '\x7d' (maybe escape '\x7b' with '[\x7b]'?)"
  | unopenedGroup =>
    "unopened alternate group; missing '\x7b' (maybe escape '\x7d' with '[\x7d]'?)"
  | danglingEscape => "dangling '\\'"

/-- A text that is no pattern. -/
structure Error where
  glob : String
  fault : Fault
deriving DecidableEq, Repr

/-- The wording of an error. -/
def Error.message (e : Error) : String :=
  "error parsing glob '" ++ e.glob ++ "': " ++ e.fault.text

/-! ## Classes -/

/-- A class that is being read. -/
structure ClassState where
  ranges : List (Char × Char) := []
  /-- Tells whether no character has been read yet. -/
  isFirst : Bool := true
  /-- Tells whether a hyphen waits for the end of its range. -/
  inRange : Bool := false

/-- Adds a character to a class: as the end of a range, or on its own. -/
def ClassState.add (s : ClassState) (c : Char) : Except Fault ClassState :=
  if s.inRange then
    match s.ranges.getLast? with
    | some (first, _) =>
      if c < first then .error (.invalidRange first c)
      else .ok ⟨s.ranges.dropLast ++ [(first, c)], false, false⟩
    | none => .ok ⟨[(c, c)], false, false⟩
  else .ok ⟨s.ranges ++ [(c, c)], false, false⟩

/-- The ranges of a class that is closed.  A hyphen at its end stands for itself. -/
def ClassState.close (s : ClassState) : List (Char × Char) :=
  if s.inRange then s.ranges ++ [('-', '-')] else s.ranges

/-- Reads the characters of a class up to its closing bracket.  A bracket or a hyphen at
its start stands for itself. -/
def readClass (s : ClassState) : List Char → Except Fault (List (Char × Char) × List Char)
  | [] => .error .unclosedClass
  | c :: cs =>
    if c = ']' ∧ ¬s.isFirst then .ok (s.close, cs)
    else if c = '-' ∧ ¬s.isFirst ∧ ¬s.inRange then readClass { s with inRange := true } cs
    else match s.add c with
      | .error fault => .error fault
      | .ok s => readClass s cs

/-! ## Patterns -/

/-- A group of alternatives that is open. -/
structure Group where
  /-- The parts before the group. -/
  before : List Part
  /-- The finished branches. -/
  branches : List Pattern

/-- A pattern that is being read. -/
structure State where
  /-- The parts of the current branch. -/
  parts : List Part := []
  /-- The open groups, the innermost first. -/
  groups : List Group := []

/-- Adds parts to the current branch. -/
def State.push (s : State) (parts : List Part) : State := { s with parts := s.parts ++ parts }

/-- Puts a part in the place of the last one of the current branch, unless that one crosses
directories at the start or at the end already. -/
def State.replaceLast (s : State) (part : Part) : State :=
  match s.parts.getLast? with
  | some .leadingDirectories | some .everythingBelow => s
  | _ => { s with parts := s.parts.dropLast ++ [part] }

/-- Reads what follows two stars; `before` is the character in front of them.  Two stars
that are not a whole component of a path are two stars of one directory. -/
def readStars (s : State) (before : Option Char) (cs : List Char) : State × List Char :=
  let plain := (s.push [.anyRun, .anyRun], cs)
  if s.parts.isEmpty then
    match cs with
    | [] => (s.push [.leadingDirectories], [])
    | '/' :: rest => (s.push [.leadingDirectories], rest)
    | _ => plain
  else if before ≠ some '/' ∧
      (s.groups.isEmpty ∨ (before ≠ some ',' ∧ before ≠ some '{')) then plain
  else match cs with
    | [] => (s.replaceLast .everythingBelow, [])
    | '/' :: rest => (s.replaceLast .innerDirectories, rest)
    | ',' :: _ | '}' :: _ =>
      if s.groups.isEmpty then plain else (s.replaceLast .everythingBelow, cs)
    | _ => plain

/-- Reads the rest of a pattern; `before` is the character in front of it.  Every round
takes at least one character, so as many rounds as characters are enough. -/
def readParts : (rounds : Nat) → State → (before : Option Char) → List Char →
    Except Fault State
  | _, s, _, [] => .ok s
  | 0, s, _, _ :: _ => .ok s
  | rounds + 1, s, before, c :: cs =>
    match c, cs with
    | '?', _ => readParts rounds (s.push [.anyByte]) (some c) cs
    | '*', '*' :: rest =>
      let (s, left) := readStars s before rest
      readParts rounds s (some (if left.length < rest.length then '/' else '*')) left
    | '*', _ => readParts rounds (s.push [.anyRun]) (some c) cs
    | '[', _ => do
      let (negated, cs) := match cs with
        | '!' :: rest | '^' :: rest => (true, rest)
        | _ => (false, cs)
      let (ranges, rest) ← readClass {} cs
      readParts rounds (s.push [.oneOf negated ranges]) (some ']') rest
    | '{', _ =>
      readParts rounds { parts := [], groups := ⟨s.parts, []⟩ :: s.groups } (some c) cs
    | '}', _ =>
      match s.groups with
      | [] => .error .unopenedGroup
      | g :: groups =>
        readParts rounds
          { parts := g.before ++ [.alternatives (g.branches ++ [s.parts])], groups } (some c) cs
    | ',', _ =>
      match s.groups with
      | [] => readParts rounds (s.push [.literal ',']) (some c) cs
      | g :: groups =>
        readParts rounds
          { parts := [], groups := { g with branches := g.branches ++ [s.parts] } :: groups }
          (some c) cs
    | '\\', [] => .error .danglingEscape
    | '\\', d :: rest => readParts rounds (s.push [.literal d]) (some d) rest
    | _, _ => readParts rounds (s.push [.literal c]) (some c) cs

/-- Reads a text as a pattern. -/
def Pattern.ofText (glob : String) : Except Error Pattern :=
  let cs := glob.toList
  match readParts cs.length {} none cs with
  | .error fault => .error ⟨glob, fault⟩
  | .ok s => if s.groups.isEmpty then .ok s.parts else .error ⟨glob, .unclosedGroup⟩

end IdlCompiler.Glob
