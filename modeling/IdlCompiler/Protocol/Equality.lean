/-
# Equality of protocols

Two protocols are the same if they agree in everything but the order of custom properties
and of the members of JSON objects in defaults and properties.  The order of types, fields,
symbols and messages matters.
-/
import IdlCompiler.Protocol.Basic

namespace IdlCompiler

/-- Equality of custom properties. -/
def Properties.same (a b : Properties) : Bool := (Json.object a).same (Json.object b)

/-- Equality of optional JSON values. -/
def sameDefault : Option Json → Option Json → Bool
  | none, none => true
  | some a, some b => a.same b
  | _, _ => false

/-- Equality of lists by an equality of their items. -/
def sameList {α : Type} (same : α → α → Bool) : List α → List α → Bool
  | [], [] => true
  | a :: as, b :: bs => same a b && sameList same as bs
  | _, _ => false

/-- Equality of fields. -/
def Field.same (a b : Field) : Bool :=
  a.name == b.name && a.schema == b.schema && sameDefault a.default? b.default?
    && a.doc == b.doc && Properties.same a.properties b.properties

/-- Equality of what named types consist of. -/
def TypeBody.same : TypeBody → TypeBody → Bool
  | record e as, record f bs => e == f && sameList Field.same as bs
  | symbols as, symbols bs => as == bs
  | fixed m, fixed n => m == n
  | _, _ => false

/-- Equality of named types. -/
def NamedType.same (a b : NamedType) : Bool :=
  a.name == b.name && a.space == b.space && a.doc == b.doc
    && Properties.same a.properties b.properties && a.body.same b.body

/-- Equality of messages. -/
def Message.same (a b : Message) : Bool :=
  a.name == b.name && a.doc == b.doc && Properties.same a.properties b.properties
    && sameList Field.same a.request b.request && a.response == b.response
    && a.errors == b.errors && a.oneWay == b.oneWay

namespace Protocol

/-- Equality of protocols. -/
def same (p q : Protocol) : Bool :=
  p.name == q.name && p.space == q.space && p.doc == q.doc
    && Properties.same p.properties q.properties && sameList NamedType.same p.types q.types
    && sameList Message.same p.messages q.messages && p.lookup.same q.lookup

end Protocol

/-! ## Part by part -/

theorem Field.same_iff {f g : Field} : f.same g ↔ f.name = g.name ∧ f.schema = g.schema ∧
    sameDefault f.default? g.default? ∧ f.doc = g.doc ∧
    Properties.same f.properties g.properties := by
  simp [same, and_assoc]

theorem TypeBody.same_record_iff {e e' : Bool} {fs gs : List Field} :
    (record e fs).same (record e' gs) ↔ e = e' ∧ sameList Field.same fs gs := by
  simp [same]

/-- Bodies that are the same are of one kind, and equal unless they have fields. -/
theorem TypeBody.of_same {body other : TypeBody} (h : body.same other) :
    (∃ e fs gs, body = record e fs ∧ other = record e gs ∧ sameList Field.same fs gs) ∨
      (∃ names, body = symbols names ∧ other = symbols names) ∨
      ∃ size, body = fixed size ∧ other = fixed size := by
  cases body with
  | record e fs =>
    cases other with
    | record e' gs =>
      obtain ⟨rfl, hfields⟩ := same_record_iff.mp h
      exact .inl ⟨e, fs, gs, rfl, rfl, hfields⟩
    | _ => cases h
  | symbols names =>
    cases other with
    | symbols others =>
      obtain rfl : names = others := by simpa [same] using h
      exact .inr (.inl ⟨names, rfl, rfl⟩)
    | _ => cases h
  | fixed size =>
    cases other with
    | fixed size' =>
      obtain rfl : size = size' := by simpa [same] using h
      exact .inr (.inr ⟨size, rfl, rfl⟩)
    | _ => cases h

theorem NamedType.same_iff {t u : NamedType} : t.same u ↔ t.name = u.name ∧ t.space = u.space ∧
    t.doc = u.doc ∧ Properties.same t.properties u.properties ∧ t.body.same u.body := by
  simp [same, and_assoc]

theorem Message.same_iff {m n : Message} : m.same n ↔ m.name = n.name ∧ m.doc = n.doc ∧
    Properties.same m.properties n.properties ∧ sameList Field.same m.request n.request ∧
    m.response = n.response ∧ m.errors = n.errors ∧ m.oneWay = n.oneWay := by
  simp [same, and_assoc]

theorem Protocol.same_iff {p q : Protocol} : p.same q ↔ p.name = q.name ∧ p.space = q.space ∧
    p.doc = q.doc ∧ Properties.same p.properties q.properties ∧
    sameList NamedType.same p.types q.types ∧ sameList Message.same p.messages q.messages ∧
    p.lookup.same q.lookup := by
  simp [same, and_assoc]

end IdlCompiler
