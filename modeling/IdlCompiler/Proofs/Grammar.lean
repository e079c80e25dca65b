/-
# The grammar of interface definitions

Which lists of tokens are interface definitions, and what they stand for, said without a
reader: every nonterminal is a relation between lists of tokens and meanings, `Phrases`.
The grammar has these nonterminals.

* A unit: annotations, `protocol`, a name, declarations in braces, the end.
* A declaration: annotations and a record, an error, an enum, a block of fixed size or a
  message.
* A declaration of fields: annotations, a type, names with defaults, a semicolon.
* A type: a word, an array, a map or a union.
* A value: a literal, `true`, `false`, `null`, an array or an object.
* An annotation: an at sign, a name, a value in parentheses.

Types and values nest, and the grammar counts how deep.  Two rules are kept apart from the
rest in `Rules`: which names properties may have, and which words a message may start with.
-/
import IdlCompiler.Idl.Declaration

namespace IdlCompiler.Idl

/-- The phrases of a nonterminal, each with what it stands for. -/
abbrev Phrases (α : Type) := List Token → α → Prop

/-! ## Repetition -/

section Repetition

variable {α : Type}

/-- Phrases one after the other. -/
inductive Repeated (P : Phrases α) : Phrases (List α)
  | nil : Repeated P [] []
  | cons {ts us : List Token} {a : α} {as : List α} (head : P ts a) (tail : Repeated P us as) :
      Repeated P (ts ++ us) (a :: as)

/-- One or more phrases with commas between them. -/
inductive Separated (P : Phrases α) : Phrases (List α)
  | one {ts : List Token} {a : α} (head : P ts a) : Separated P ts [a]
  | cons {ts us : List Token} {comma : Token} {a : α} {as : List α} (head : P ts a)
      (kind : comma.kind = .mark .comma) (tail : Separated P us as) :
      Separated P (ts ++ comma :: us) (a :: as)

/-- Any number of phrases with commas between them, and perhaps one behind the last. -/
inductive Listed (P : Phrases α) : Phrases (List α)
  | nil : Listed P [] []
  | one {ts : List Token} {a : α} (head : P ts a) : Listed P ts [a]
  | cons {ts us : List Token} {comma : Token} {a : α} {as : List α} (head : P ts a)
      (kind : comma.kind = .mark .comma) (tail : Listed P us as) :
      Listed P (ts ++ comma :: us) (a :: as)

end Repetition

/-- A word. -/
inductive IsWord : Phrases String
  | word {t : Token} {text : String} (kind : t.kind = .word text) : IsWord [t] text

/-- The documentation of a phrase is the one of its first token. -/
def docOf (tokens : List Token) : Option String := tokens.head?.bind Token.doc

/-! ## Values -/

/-- A member of an object whose values are the phrases `value`. -/
inductive MemberForm (value : Phrases Json) : Phrases (String × Json)
  | member {k colon : Token} {literal key : String} {ts : List Token} {v : Json}
      (kind : k.kind = .stringLiteral literal) (decoded : Json.readStringText literal = .ok key)
      (mark : colon.kind = .mark .colon) (phrase : value ts v) :
      MemberForm value (k :: colon :: ts) (key, v)

/-- A value whose items and members have the values `inner`. -/
inductive ValueForm (inner : Phrases Json) : Phrases Json
  | string {t : Token} {literal text : String} (kind : t.kind = .stringLiteral literal)
      (decoded : Json.readStringText literal = .ok text) : ValueForm inner [t] (.string text)
  | number {t : Token} {literal : String} {v : Json} (kind : t.kind = .numberLiteral literal)
      (decoded : Json.read literal = .ok v) : ValueForm inner [t] v
  | yes {t : Token} (kind : t.kind = .word "true") : ValueForm inner [t] (.bool true)
  | no {t : Token} (kind : t.kind = .word "false") : ValueForm inner [t] (.bool false)
  | null {t : Token} (kind : t.kind = .word "null") : ValueForm inner [t] .null
  | array {o c : Token} {ts : List Token} {values : List Json}
      (opens : o.kind = .mark .openBracket) (items : Listed inner ts values)
      (closes : c.kind = .mark .closeBracket) : ValueForm inner (o :: (ts ++ [c])) (.array values)
  | object {o c : Token} {ts : List Token} {members : List (String × Json)}
      (opens : o.kind = .mark .openBrace) (items : Listed (MemberForm inner) ts members)
      (closes : c.kind = .mark .closeBrace) :
      ValueForm inner (o :: (ts ++ [c])) (.object (Json.Members.insertAll [] members))

/-- A value that nests at most so many levels deep. -/
def IsValue : Nat → Phrases Json
  | 0 => fun _ _ => False
  | levels + 1 => ValueForm (IsValue levels)

/-! ## Annotations -/

/-- An annotation. -/
inductive IsNote : Phrases Annotation
  | note {a n o c : Token} {name : String} {ts : List Token} {v : Json}
      (sign : a.kind = .mark .atSign) (word : n.kind = .word name)
      (opens : o.kind = .mark .openParen) (value : IsValue maxNesting ts v)
      (closes : c.kind = .mark .closeParen) :
      IsNote (a :: n :: o :: (ts ++ [c])) ⟨name, v, a.position⟩

/-- The namespace that annotations give: the last one counts. -/
def spaceOf (annotations : List Annotation) : Option String :=
  annotations.reverse.findSome? fun a => if a.name = "namespace" then a.value.string? else none

/-- The properties that annotations give. -/
def propertiesOf (annotations : List Annotation) : Properties :=
  Json.Members.insertAll []
    ((annotations.filter fun a => a.name ≠ "namespace").map fun a => (a.name, a.value))

/-- What the grammar leaves to rules. -/
structure Rules where
  /-- The names that properties may have. -/
  mayName : String → Prop
  /-- The words that a message may start with. -/
  mayStart : String → Prop

/-- No rules but the grammar. -/
def Rules.none : Rules := ⟨fun _ => True, fun _ => True⟩

/-- The rules of the language.  A property may not have a name with a meaning of its own in a
canonical document, and a word that starts the declaration of a type starts no message. -/
def Rules.language : Rules :=
  ⟨fun name => ¬ isReservedKey name, fun word => word ∉ ["record", "error", "enum", "fixed"]⟩

/-- Annotations that may stand before a protocol or a named type. -/
def Rules.AllowsOnType (rules : Rules) (annotations : List Annotation) : Prop :=
  ∀ a ∈ annotations, if a.name = "namespace" then a.value.string?.isSome else rules.mayName a.name

/-- Annotations that may stand before a field, a parameter or a message. -/
def Rules.AllowsOnMember (rules : Rules) (annotations : List Annotation) : Prop :=
  ∀ a ∈ annotations, a.name ≠ "namespace" ∧ rules.mayName a.name

/-! ## Types -/

/-- The words that do not stand for a type themselves. -/
def typeWords : List String := ["void", "array", "map", "union"]

/-- A type whose items, values and branches are the phrases `inner`. -/
inductive TypeForm (inner : Phrases Schema) : Phrases Schema
  | word {t : Token} {text : String} (kind : t.kind = .word text) (free : text ∉ typeWords) :
      TypeForm inner [t] (Schema.ofWord text)
  | array {k o c : Token} {ts : List Token} {s : Schema} (keyword : k.kind = .word "array")
      (opens : o.kind = .mark .openAngle) (items : inner ts s)
      (closes : c.kind = .mark .closeAngle) : TypeForm inner (k :: o :: (ts ++ [c])) (.array s)
  | map {k o c : Token} {ts : List Token} {s : Schema} (keyword : k.kind = .word "map")
      (opens : o.kind = .mark .openAngle) (values : inner ts s)
      (closes : c.kind = .mark .closeAngle) : TypeForm inner (k :: o :: (ts ++ [c])) (.map s)
  | union {k o c : Token} {ts : List Token} {ss : List Schema} (keyword : k.kind = .word "union")
      (opens : o.kind = .mark .openBrace) (branches : Separated inner ts ss)
      (closes : c.kind = .mark .closeBrace) : TypeForm inner (k :: o :: (ts ++ [c])) (.union ss)

/-- A type that nests at most so many levels deep. -/
def IsType : Nat → Phrases Schema
  | 0 => fun _ _ => False
  | levels + 1 => TypeForm (IsType levels)

/-! ## Fields -/

/-- A default value, or nothing. -/
inductive IsDefault : Phrases (Option Json)
  | none : IsDefault [] none
  | some {e : Token} {ts : List Token} {v : Json} (equals : e.kind = .mark .equals)
      (value : IsValue maxNesting ts v) : IsDefault (e :: ts) (some v)

/-- A name with its default in a declaration of fields.  Its own documentation counts more
than the one of the declaration. -/
inductive IsVariable (doc : Option String) (properties : Properties) (schema : Schema) :
    Phrases Field
  | named {t : Token} {name : String} {ts : List Token} {default? : Option Json}
      (word : t.kind = .word name) (default : IsDefault ts default?) :
      IsVariable doc properties schema (t :: ts)
        { name, schema, default?, doc := t.doc.or doc, properties }

/-- A declaration of one or more fields of one type. -/
inductive IsFields (rules : Rules) : Phrases (List Field)
  | fields {ts us vs : List Token} {semicolon : Token} {annotations : List Annotation}
      {schema : Schema} {fields : List Field} (notes : Repeated IsNote ts annotations)
      (allowed : rules.AllowsOnMember annotations) (type : IsType maxNesting us schema)
      (names : Separated (IsVariable (docOf (ts ++ us)) (propertiesOf annotations) schema)
        vs fields)
      (ends : semicolon.kind = .mark .semicolon) :
      IsFields rules (ts ++ (us ++ (vs ++ [semicolon]))) fields

/-- A parameter of a message. -/
inductive IsParameter (rules : Rules) : Phrases Field
  | parameter {ts us vs : List Token} {n : Token} {annotations : List Annotation}
      {schema : Schema} {name : String} {default? : Option Json}
      (notes : Repeated IsNote ts annotations) (allowed : rules.AllowsOnMember annotations)
      (type : IsType maxNesting us schema) (word : n.kind = .word name)
      (default : IsDefault vs default?) :
      IsParameter rules (ts ++ (us ++ n :: vs))
        { name, schema, default?, doc := docOf (ts ++ us)
          properties := propertiesOf annotations }

/-! ## Messages -/

/-- The schema of the answer of a message. -/
inductive IsResponse (rules : Rules) : Phrases Schema
  | void {t : Token} (kind : t.kind = .word "void") : IsResponse rules [t] .null
  | type {ts : List Token} {schema : Schema} (type : IsType maxNesting ts schema)
      (start : ∀ t ∈ ts.head?, ∀ word, t.kind = .word word → rules.mayStart word) :
      IsResponse rules ts schema

/-- The errors that a message throws, or nothing. -/
inductive IsThrows : Phrases (List String)
  | none : IsThrows [] []
  | some {k : Token} {ts : List Token} {errors : List String} (keyword : k.kind = .word "throws")
      (names : Separated IsWord ts errors) : IsThrows (k :: ts) errors

/-- The mark of a message without an answer, or nothing. -/
inductive IsOneWay : Phrases Bool
  | no : IsOneWay [] false
  | yes {k : Token} (keyword : k.kind = .word "oneway") : IsOneWay [k] true

/-- A message, apart from what its annotations say. -/
inductive IsMessage (rules : Rules) : Phrases Message
  | message {ts us vs ws : List Token} {n o c semicolon : Token} {response : Schema} {name : String}
      {request : List Field} {errors : List String} {oneWay : Bool}
      (answer : IsResponse rules ts response) (word : n.kind = .word name)
      (opens : o.kind = .mark .openParen) (parameters : Listed (IsParameter rules) us request)
      (closes : c.kind = .mark .closeParen) (throws : IsThrows vs errors)
      (way : IsOneWay ws oneWay) (ends : semicolon.kind = .mark .semicolon) :
      IsMessage rules (ts ++ n :: o :: (us ++ c :: (vs ++ (ws ++ [semicolon]))))
        { name, request, response, errors, oneWay }

/-! ## Declarations -/

/-- What a named type is, after its keyword: its name and its body. -/
inductive IsBody (rules : Rules) : String → Phrases (String × TypeBody)
  | record {n o c : Token} {ts : List Token} {name : String} {fields : List (List Field)}
      {isError : Bool} (word : n.kind = .word name) (opens : o.kind = .mark .openBrace)
      (members : Repeated (IsFields rules) ts fields) (closes : c.kind = .mark .closeBrace) :
      IsBody rules (if isError then "error" else "record") (n :: o :: (ts ++ [c]))
        (name, .record isError fields.flatten)
  | enum {n o c : Token} {ts : List Token} {name : String} {symbols : List String}
      (word : n.kind = .word name) (opens : o.kind = .mark .openBrace)
      (members : Listed IsWord ts symbols) (closes : c.kind = .mark .closeBrace) :
      IsBody rules "enum" (n :: o :: (ts ++ [c])) (name, .symbols symbols)
  | fixed {n o s c semicolon : Token} {name literal : String} {size : UInt64}
      (word : n.kind = .word name) (opens : o.kind = .mark .openParen)
      (number : s.kind = .numberLiteral literal) (decoded : sizeOf? literal = some size)
      (closes : c.kind = .mark .closeParen) (ends : semicolon.kind = .mark .semicolon) :
      IsBody rules "fixed" [n, o, s, c, semicolon] (name, .fixed size)

/-- A declaration inside a protocol. -/
inductive IsDeclaration (rules : Rules) : Phrases Declaration
  | type {ts us : List Token} {k : Token} {annotations : List Annotation} {keyword : String}
      {name : String} {body : TypeBody} (notes : Repeated IsNote ts annotations)
      (allowed : rules.AllowsOnType annotations) (word : k.kind = .word keyword)
      (phrase : IsBody rules keyword us (name, body)) :
      IsDeclaration rules (ts ++ k :: us) (.type {
        name
        space := spaceOf annotations
        doc := docOf (ts ++ [k])
        properties := propertiesOf annotations
        body })
  | message {ts us : List Token} {annotations : List Annotation} {m : Message}
      (notes : Repeated IsNote ts annotations) (allowed : rules.AllowsOnMember annotations)
      (phrase : IsMessage rules us m) :
      IsDeclaration rules (ts ++ us) (.message { m with
        doc := docOf (ts ++ us)
        properties := propertiesOf annotations })

/-- The type that a declaration declares. -/
def Declaration.type? : Declaration → Option NamedType
  | .type t => some t
  | .message _ => none

/-- The message that a declaration declares. -/
def Declaration.message? : Declaration → Option Message
  | .type _ => none
  | .message m => some m

/-- A protocol with the declared types and messages in order, and the lookup of the types. -/
def protocolOf (head : Protocol) (declarations : List Declaration) : Protocol :=
  { head with
    types := declarations.filterMap Declaration.type?
    messages := declarations.filterMap Declaration.message?
    lookup := Protocol.lookupOf ((declarations.filterMap Declaration.type?).map head.fullNameOf) }

/-- An interface definition. -/
inductive IsUnit (rules : Rules) : Phrases Protocol
  | unit {ts us : List Token} {k n o c e : Token} {annotations : List Annotation} {name : String}
      {declarations : List Declaration} (notes : Repeated IsNote ts annotations)
      (allowed : rules.AllowsOnType annotations) (keyword : k.kind = .word "protocol")
      (word : n.kind = .word name) (opens : o.kind = .mark .openBrace)
      (members : Repeated (IsDeclaration rules) us declarations)
      (closes : c.kind = .mark .closeBrace) (ends : e.kind = .endOfInput) :
      IsUnit rules (ts ++ k :: n :: o :: (us ++ [c, e])) (protocolOf {
        name
        space := spaceOf annotations
        doc := docOf (ts ++ [k])
        properties := propertiesOf annotations } declarations)

end IdlCompiler.Idl
