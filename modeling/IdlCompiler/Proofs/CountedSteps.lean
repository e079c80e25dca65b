/-
# Steps over tokens with their cost

A step over tokens together with the number of elementary steps that it takes from each
cursor (`Counted`).  An elementary step looks at the current token and takes it or fails;
entering a type or a JSON value counts as one, too.  The procedures of the parser are
written once more as counted steps, in the same words, and their outcomes are those of the
procedures: the count only watches.

The four repetitions are one definition with a parameter here (`Repetition`), of which
`Repetition.round` is a single round.
-/
import IdlCompiler.Proofs.Reads

namespace IdlCompiler.Idl

/-! ## Repetitions -/

/-- The ways in which the parser repeats a step. -/
inductive Repetition where
  | whileSeeing (kind : TokenKind)
  | untilSeeing (kind : TokenKind)
  | untilSeeingCommas (kind : TokenKind)
  | betweenCommas
deriving Repr, DecidableEq

namespace Repetition

/-- One round of a repetition, which goes on with `more`, among steps that can tell and take
the current token. -/
def round {m : Type → Type} [Monad m] (check eat : TokenKind → m Bool) {α : Type} (step : m α)
    (more : m (List α)) : Repetition → m (List α)
  | whileSeeing kind => do
    if ← check kind then
      let a ← step
      let as ← more
      return a :: as
    else return []
  | untilSeeing kind => do
    if ← check kind then return []
    else
      let a ← step
      let as ← more
      return a :: as
  | untilSeeingCommas kind => do
    if ← check kind then return []
    else
      let a ← step
      if ← eat (.mark .comma) then
        let as ← more
        return a :: as
      else return [a]
  | betweenCommas => do
    let a ← step
    if ← eat (.mark .comma) then
      let as ← more
      return a :: as
    else return [a]

variable {α : Type} (r : Repetition) (step : Parse α)

/-- A repetition with a number of rounds. -/
def rounds : Nat → Parse (List α) := match r with
  | whileSeeing kind => Parse.whileSeeing kind step
  | untilSeeing kind => Parse.untilSeeing kind step
  | untilSeeingCommas kind => Parse.untilSeeingCommas kind step
  | betweenCommas => Parse.betweenCommas step

/-- A repetition with as many rounds as there are tokens. -/
def all : Parse (List α) := Parse.withRounds (r.rounds step)

@[simp] theorem rounds_zero : r.rounds step 0 = pure [] := by
  cases r <;> rfl

@[simp] theorem rounds_succ (n : Nat) :
    r.rounds step (n + 1) = r.round Parse.check Parse.eat step (r.rounds step n) := by
  cases r <;> rfl

@[simp] theorem all_whileSeeing (kind : TokenKind) :
    (whileSeeing kind).all step = Parse.withRounds (Parse.whileSeeing kind step) := rfl

@[simp] theorem all_untilSeeing (kind : TokenKind) :
    (untilSeeing kind).all step = Parse.withRounds (Parse.untilSeeing kind step) := rfl

@[simp] theorem all_untilSeeingCommas (kind : TokenKind) :
    (untilSeeingCommas kind).all step = Parse.withRounds (Parse.untilSeeingCommas kind step) :=
  rfl

@[simp] theorem all_betweenCommas :
    betweenCommas.all step = Parse.withRounds (Parse.betweenCommas step) := rfl

theorem all_apply (c : Cursor) : r.all step c = r.rounds step (c.ahead.length + 1) c := rfl

end Repetition

/-! ## Counted steps -/

/-- A step over tokens with the number of elementary steps that it takes. -/
structure Counted (α : Type) where
  run : Parse α
  cost : Cursor → Nat

namespace Counted

variable {α β : Type}

instance : Monad Counted where
  pure a := ⟨pure a, fun _ => 0⟩
  map f x := ⟨f <$> x.run, x.cost⟩
  bind x f := ⟨x.run >>= fun a => (f a).run, fun c => x.cost c + match x.run c with
    | .ok a c' => (f a).cost c'
    | .error _ _ => 0⟩

/-- An elementary step. -/
def once (step : Parse α) : Counted α := ⟨step, fun _ => 1⟩

/-- A step that is chosen by the cursor.  The choice of a number of rounds or levels counts
as nothing. -/
def choose (step : Cursor → Counted α) : Counted α :=
  ⟨fun c => (step c).run c, fun c => (step c).cost c⟩

/-- Runs a step one level deeper, which is an elementary step before it. -/
def nested (nesting : Nesting) (step : Counted α) : Counted α :=
  ⟨Parse.nested nesting step.run, fun c =>
    1 + if maxNesting ≤ c.depth then 0 else step.cost { c with depth := c.depth + 1 }⟩

abbrev current : Counted Token := once Parse.current

abbrev advance : Counted Unit := once Parse.advance

abbrev fail (fault : Fault) : Counted α := once (Parse.fail fault)

abbrev unexpected (expected : String) : Counted α := once (Parse.unexpected expected)

abbrev missing (expected : String) : Counted α := once (Parse.missing expected)

abbrev check (kind : TokenKind) : Counted Bool := once (Parse.check kind)

abbrev eat (kind : TokenKind) : Counted Bool := once (Parse.eat kind)

abbrev expect (mark : Mark) : Counted Unit := once (Parse.expect mark)

abbrev expectKeyword (keyword : String) : Counted Unit := once (Parse.expectKeyword keyword)

abbrev expectWord (what : String) : Counted String := once (Parse.expectWord what)

abbrev ofReading (reading : Reading α) : Counted α := once (Parse.ofReading reading)

/-- A repetition with a number of rounds. -/
def rounds (r : Repetition) (step : Counted α) : Nat → Counted (List α)
  | 0 => return []
  | n + 1 => r.round check eat step (rounds r step n)

/-- A repetition with as many rounds as there are tokens. -/
def all (r : Repetition) (step : Counted α) : Counted (List α) :=
  choose fun c => rounds r step (c.ahead.length + 1)

/-- Items with commas between them up to a closing mark, which is taken. -/
def items (close : Mark) (step : Counted α) : Counted (List α) := do
  let as ← all (.untilSeeingCommas (.mark close)) step
  expect close
  return as

/-! ### The outcomes of counted steps -/

section Outcomes

variable {x : Counted α} {f : α → Counted β} {c : Cursor}

@[simp] theorem run_pure (a : α) : (pure a : Counted α).run = pure a := rfl

@[simp] theorem run_bind : (x >>= f).run = x.run >>= fun a => (f a).run := rfl

@[simp] theorem run_map (g : α → β) : (g <$> x).run = g <$> x.run := rfl

@[simp] theorem run_once (step : Parse α) : (once step).run = step := rfl

@[simp] theorem run_nested (nesting : Nesting) :
    (nested nesting x).run = Parse.nested nesting x.run := rfl

@[simp] theorem run_ite {p : Prop} [Decidable p] {x y : Counted α} :
    (if p then x else y).run = if p then x.run else y.run := by
  split <;> rfl

theorem run_round (r : Repetition) (more : Counted (List α)) :
    (r.round check eat x more).run = r.round Parse.check Parse.eat x.run more.run := by
  cases r <;> simp [Repetition.round]

theorem run_rounds (r : Repetition) (n : Nat) : (rounds r x n).run = r.rounds x.run n := by
  induction n with
  | zero => simp [rounds]
  | succ n ih => rw [rounds, run_round, ih, Repetition.rounds_succ]

@[simp] theorem run_all (r : Repetition) : (all r x).run = r.all x.run := by
  funext c
  exact congrFun (run_rounds r _) c

@[simp] theorem run_items (close : Mark) : (items close x).run = Parse.items close x.run := by
  simp [items, Parse.items]

end Outcomes

/-! ## Values and annotations -/

def parseMember (value : Counted Json) : Counted (String × Json) := do
  let token ← current
  match token.kind with
  | .stringLiteral literal =>
    advance
    let key ← ofReading (decodeString literal token.position)
    expect .colon
    let v ← value
    return (key, v)
  | _ => unexpected "JSON object key"

def parseValueIn : (levels : Nat) → Counted Json
  | 0 => fail (.nestedTooDeep .values)
  | levels + 1 => nested .values do
    let token ← current
    match token.kind with
    | .stringLiteral literal =>
      advance
      let text ← ofReading (decodeString literal token.position)
      return .string text
    | .numberLiteral literal =>
      advance
      ofReading (decodeNumber literal token.position)
    | .word "true" =>
      advance
      return .bool true
    | .word "false" =>
      advance
      return .bool false
    | .word "null" =>
      advance
      return .null
    | .mark .openBracket =>
      advance
      let values ← items .closeBracket (parseValueIn levels)
      return .array values
    | .mark .openBrace =>
      advance
      let members ← items .closeBrace (parseMember (parseValueIn levels))
      return .object (Json.Members.insertAll [] members)
    | _ => missing "JSON value"

def parseValue : Counted Json := choose fun c => parseValueIn (maxNesting + 1 - c.depth)

def parseAnnotation : Counted Annotation := do
  let position := (← current).position
  advance
  let name ← expectWord "annotation name"
  if name ≠ "namespace" ∧ isReservedKey name then
    once (throw (.fault position (.reservedProperty name)))
  expect .openParen
  let value ← parseValue
  expect .closeParen
  return { name, value, position }

def parseAnnotations : Counted (List Annotation) :=
  all (.whileSeeing (.mark .atSign)) parseAnnotation

/-! ## Types and fields -/

def parseTypeIn : (levels : Nat) → Counted Schema
  | 0 => fail (.nestedTooDeep .types)
  | levels + 1 => nested .types do
    match (← current).kind with
    | .word "array" =>
      advance
      expect .openAngle
      let items ← parseTypeIn levels
      expect .closeAngle
      return .array items
    | .word "map" =>
      advance
      expect .openAngle
      let values ← parseTypeIn levels
      expect .closeAngle
      return .map values
    | .word "union" =>
      advance
      expect .openBrace
      let branches ← all .betweenCommas (parseTypeIn levels)
      expect .closeBrace
      return .union branches
    | .word "void" => fail .misplacedVoid
    | .word word =>
      advance
      return Schema.ofWord word
    | _ => missing "type"

def parseType : Counted Schema := choose fun c => parseTypeIn (maxNesting + 1 - c.depth)

def parseDefault : Counted (Option Json) := do
  if ← eat (.mark .equals) then some <$> parseValue else return none

def parseVariable (doc : Option String) (properties : Properties) (schema : Schema) :
    Counted Field := do
  let own := (← current).doc
  let name ← expectWord "field name"
  let default? ← parseDefault
  return { name, schema, default?, doc := own.or doc, properties }

def parseFields : Counted (List Field) := do
  let doc := (← current).doc
  let annotations ← parseAnnotations
  let properties ← ofReading (applyMemberAnnotations annotations)
  let schema ← parseType
  let fields ← all .betweenCommas (parseVariable doc properties schema)
  expect .semicolon
  return fields

def parseParameter : Counted Field := do
  let doc := (← current).doc
  let annotations ← parseAnnotations
  let schema ← parseType
  let name ← expectWord "parameter name"
  let properties ← ofReading (applyMemberAnnotations annotations)
  let default? ← parseDefault
  return { name, schema, default?, doc, properties }

/-! ## Declarations -/

def parseRecord (doc : Option String) (annotations : List Annotation) (isError : Bool) :
    Counted NamedType := do
  let name ← expectWord (if isError then "error name" else "record name")
  let (space, properties) ← ofReading (applyTypeAnnotations annotations)
  expect .openBrace
  let fields ← all (.untilSeeing (.mark .closeBrace)) parseFields
  expect .closeBrace
  return { name, space, doc, properties, body := .record isError fields.flatten }

def parseEnum (doc : Option String) (annotations : List Annotation) : Counted NamedType := do
  let name ← expectWord "enum name"
  expect .openBrace
  let symbols ← items .closeBrace (expectWord "enum symbol")
  let (space, properties) ← ofReading (applyTypeAnnotations annotations)
  return { name, space, doc, properties, body := .symbols symbols }

def parseSize : Counted UInt64 := do
  match (← current).kind with
  | .numberLiteral literal =>
    match sizeOf? literal with
    | some size =>
      advance
      return size
    | none => fail (.invalidSize literal)
  | _ => missing "fixed size"

def parseFixed (doc : Option String) (annotations : List Annotation) : Counted NamedType := do
  let name ← expectWord "fixed name"
  expect .openParen
  let size ← parseSize
  expect .closeParen
  expect .semicolon
  let (space, properties) ← ofReading (applyTypeAnnotations annotations)
  return { name, space, doc, properties, body := .fixed size }

def parseResponse : Counted Schema := do
  if ← eat (.word "void") then return Schema.null else parseType

def parseThrows : Counted (List String) := do
  if ← eat (.word "throws") then all .betweenCommas (expectWord "error type")
  else return []

def parseMessage : Counted Message := do
  let response ← parseResponse
  let name ← expectWord "message name"
  expect .openParen
  let request ← items .closeParen parseParameter
  let errors ← parseThrows
  let oneWay ← eat (.word "oneway")
  expect .semicolon
  return { name, request, response, errors, oneWay }

def parseDeclaration : Counted Declaration := do
  let doc := (← current).doc
  let annotations ← parseAnnotations
  match (← current).kind with
  | .word "record" =>
    advance
    .type <$> parseRecord doc annotations false
  | .word "error" =>
    advance
    .type <$> parseRecord doc annotations true
  | .word "enum" =>
    advance
    .type <$> parseEnum doc annotations
  | .word "fixed" =>
    advance
    .type <$> parseFixed doc annotations
  | .word _ =>
    let message ← parseMessage
    let properties ← ofReading (applyMemberAnnotations annotations)
    return .message { message with doc, properties }
  | _ => missing "declaration"

def parseUnit : Counted Protocol := do
  let doc := (← current).doc
  let annotations ← parseAnnotations
  expectKeyword "protocol"
  let name ← expectWord "protocol name"
  let (space, properties) ← ofReading (applyTypeAnnotations annotations)
  expect .openBrace
  let declarations ← all (.untilSeeing (.mark .closeBrace)) parseDeclaration
  expect .closeBrace
  unless ← check .endOfInput do unexpected "end of input after protocol"
  let head : Protocol := { name, space, doc, properties }
  return declarations.foldl Declaration.addTo head

/-! ## The counted procedures have the outcomes of the procedures -/

@[simp] theorem run_parseMember (value : Counted Json) :
    (parseMember value).run = Idl.parseMember value.run := by
  simp only [parseMember, Idl.parseMember, run_bind, run_once]
  congr
  funext token
  generalize token.kind = kind
  split <;> simp

@[simp] theorem run_parseValueIn (levels : Nat) :
    (parseValueIn levels).run = Idl.parseValueIn levels := by
  induction levels with
  | zero => rfl
  | succ levels ih =>
    simp only [parseValueIn, Idl.parseValueIn, run_nested, run_bind, run_once]
    congr
    funext token
    generalize token.kind = kind
    split <;> simp [ih]

@[simp] theorem run_parseValue : parseValue.run = Idl.parseValue := by
  funext c
  exact congrFun (run_parseValueIn _) c

@[simp] theorem run_parseAnnotation : parseAnnotation.run = Idl.parseAnnotation := by
  unfold parseAnnotation Idl.parseAnnotation
  simp

@[simp] theorem run_parseAnnotations : parseAnnotations.run = Idl.parseAnnotations := by
  simp [parseAnnotations, Idl.parseAnnotations]

@[simp] theorem run_parseTypeIn (levels : Nat) :
    (parseTypeIn levels).run = Idl.parseTypeIn levels := by
  induction levels with
  | zero => rfl
  | succ levels ih =>
    simp only [parseTypeIn, Idl.parseTypeIn, run_nested, run_bind, run_once]
    congr
    funext token
    generalize token.kind = kind
    split <;> simp [*]

@[simp] theorem run_parseType : parseType.run = Idl.parseType := by
  funext c
  exact congrFun (run_parseTypeIn _) c

@[simp] theorem run_parseDefault : parseDefault.run = Idl.parseDefault := by
  simp [parseDefault, Idl.parseDefault]

@[simp] theorem run_parseVariable (doc : Option String) (properties : Properties)
    (schema : Schema) :
    (parseVariable doc properties schema).run = Idl.parseVariable doc properties schema := by
  simp [parseVariable, Idl.parseVariable]

@[simp] theorem run_parseFields : parseFields.run = Idl.parseFields := by
  simp [parseFields, Idl.parseFields]

@[simp] theorem run_parseParameter : parseParameter.run = Idl.parseParameter := by
  simp [parseParameter, Idl.parseParameter]

@[simp] theorem run_parseRecord (doc : Option String) (annotations : List Annotation)
    (isError : Bool) :
    (parseRecord doc annotations isError).run = Idl.parseRecord doc annotations isError := by
  simp [parseRecord, Idl.parseRecord]

@[simp] theorem run_parseEnum (doc : Option String) (annotations : List Annotation) :
    (parseEnum doc annotations).run = Idl.parseEnum doc annotations := by
  simp [parseEnum, Idl.parseEnum]

@[simp] theorem run_parseSize : parseSize.run = Idl.parseSize := by
  simp only [parseSize, Idl.parseSize, run_bind, run_once]
  congr
  funext token
  generalize token.kind = kind
  split
  · split <;> simp [*]
  · simp

@[simp] theorem run_parseFixed (doc : Option String) (annotations : List Annotation) :
    (parseFixed doc annotations).run = Idl.parseFixed doc annotations := by
  simp [parseFixed, Idl.parseFixed]

@[simp] theorem run_parseResponse : parseResponse.run = Idl.parseResponse := by
  simp [parseResponse, Idl.parseResponse]

@[simp] theorem run_parseThrows : parseThrows.run = Idl.parseThrows := by
  simp [parseThrows, Idl.parseThrows]

@[simp] theorem run_parseMessage : parseMessage.run = Idl.parseMessage := by
  simp [parseMessage, Idl.parseMessage]

@[simp] theorem run_parseDeclaration : parseDeclaration.run = Idl.parseDeclaration := by
  simp only [parseDeclaration, Idl.parseDeclaration, run_bind, run_once, run_parseAnnotations]
  congr
  funext first
  congr
  funext annotations
  congr
  funext token
  generalize token.kind = kind
  split <;> simp [*]

@[simp] theorem run_parseUnit : parseUnit.run = Idl.parseUnit := by
  simp [parseUnit, Idl.parseUnit]

end Counted

end IdlCompiler.Idl
