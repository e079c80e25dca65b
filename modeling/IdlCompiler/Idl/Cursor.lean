/-
# The cursor over tokens

The state of reading an interface definition: the current token, the tokens ahead, and how
deep types or JSON values nest.  A step changes the state and gives a result or an error;
the state is there after an error too, so that laws about it can be stated for both
outcomes.  The last token is never left.
-/
import IdlCompiler.Protocol.Document

namespace IdlCompiler.Idl

/-- A place among tokens. -/
structure Cursor where
  current : Token
  /-- The tokens behind the current one. -/
  ahead : List Token
  /-- How many types or JSON values are open. -/
  depth : Nat := 0
deriving Repr

/-- The cursor before a list of tokens. -/
def Cursor.ofTokens : List Token → Cursor
  | [] => { current := { kind := .endOfInput, position := ⟨1, 1⟩ }, ahead := [] }
  | t :: ts => { current := t, ahead := ts }

/-- A step over tokens. -/
abbrev Parse (α : Type) := EStateM ReadError Cursor α

namespace Parse

/-- The current token. -/
def current : Parse Token := do return (← get).current

/-- Goes on to the next token, if there is one. -/
def advance : Parse Unit := modify fun c =>
  match c.ahead with
  | [] => c
  | t :: ts => { c with current := t, ahead := ts }

/-- Reports a fault at the current token. -/
def fail {α : Type} (fault : Fault) : Parse α := do throw (.fault (← current).position fault)

/-- Reports that the current token is not what is expected. -/
def unexpected {α : Type} (expected : String) : Parse α := do
  fail (.unexpectedToken expected (← current).kind)

/-- Reports that something is expected that is not there, or that the text ends too
early. -/
def missing {α : Type} (expected : String) : Parse α := do
  let token ← current
  if token.kind = .endOfInput then throw (.unexpectedEnd token.position expected)
  else unexpected expected

/-- Tells whether the current token is of a kind. -/
def check (kind : TokenKind) : Parse Bool := do return (← current).kind = kind

/-- Takes a token of a kind, if it is the current one. -/
def eat (kind : TokenKind) : Parse Bool := do
  if ← check kind then
    advance
    return true
  else return false

/-- Takes a mark. -/
def expect (mark : Mark) : Parse Unit := do
  unless ← eat (.mark mark) do missing (TokenKind.mark mark).shown

/-- Takes a given word. -/
def expectKeyword (keyword : String) : Parse Unit := do
  unless ← eat (.word keyword) do missing ("'" ++ keyword ++ "'")

/-- Takes a word. -/
def expectWord (what : String) : Parse String := do
  match (← current).kind with
  | .word text =>
    advance
    return text
  | _ => missing what

/-- Runs a step one level deeper.  The depth is what it was afterwards, also after an
error. -/
def nested {α : Type} (nesting : Nesting) (step : Parse α) : Parse α := fun c =>
  if maxNesting ≤ c.depth then fail (.nestedTooDeep nesting) c
  else match step { c with depth := c.depth + 1 } with
    | .ok a c' => .ok a { c' with depth := c'.depth - 1 }
    | .error e c' => .error e { c' with depth := c'.depth - 1 }

/-! ## Repetition

A repetition ends when its closing mark comes or a comma is missing.  Every round takes
at least one token, so as many rounds as tokens are enough. -/

/-- Gives a repetition as many rounds as there are tokens. -/
def withRounds {α : Type} (step : (rounds : Nat) → Parse α) : Parse α := do
  step ((← get).ahead.length + 1)

/-- Repeats a step while the current token is of a kind. -/
def whileSeeing {α : Type} (kind : TokenKind) (step : Parse α) : (rounds : Nat) → Parse (List α)
  | 0 => return []
  | rounds + 1 => do
    if ← check kind then
      let a ← step
      let as ← whileSeeing kind step rounds
      return a :: as
    else return []

/-- Repeats a step until the current token is of a kind. -/
def untilSeeing {α : Type} (kind : TokenKind) (step : Parse α) : (rounds : Nat) → Parse (List α)
  | 0 => return []
  | rounds + 1 => do
    if ← check kind then return []
    else
      let a ← step
      let as ← untilSeeing kind step rounds
      return a :: as

/-- Repeats a step until the current token is of a kind or no comma follows the step.  A
comma may be the last thing before that token. -/
def untilSeeingCommas {α : Type} (kind : TokenKind) (step : Parse α) :
    (rounds : Nat) → Parse (List α)
  | 0 => return []
  | rounds + 1 => do
    if ← check kind then return []
    else
      let a ← step
      if ← eat (.mark .comma) then
        let as ← untilSeeingCommas kind step rounds
        return a :: as
      else return [a]

/-- Repeats a step as long as a comma follows it. -/
def betweenCommas {α : Type} (step : Parse α) : (rounds : Nat) → Parse (List α)
  | 0 => return []
  | rounds + 1 => do
    let a ← step
    if ← eat (.mark .comma) then
      let as ← betweenCommas step rounds
      return a :: as
    else return [a]

/-- Items with commas between them up to a closing mark, which is taken. -/
def items {α : Type} (close : Mark) (step : Parse α) : Parse (List α) := do
  let as ← withRounds (untilSeeingCommas (.mark close) step)
  expect close
  return as

end Parse

end IdlCompiler.Idl
