/-
# What a well-formed protocol is

The check of a protocol walks through types, fields and messages and stops at the first
flaw.  This file says the same without an order: which names are identifiers, which names
differ, which references stand for types, and which unions are allowed at every depth of a
schema.  The main statement, `Protocol.validate_eq_ok_iff`, says that the check passes
exactly on the protocols that are well formed in this sense.
-/
import IdlCompiler.Protocol.Validation
import Mathlib.Data.List.Nodup
import Mathlib.Tactic.Tauto

namespace IdlCompiler

namespace Schema

/-- Induction over a schema and the schemas in it. -/
@[elab_as_elim]
theorem induction {motive : Schema → Prop} (primitive : ∀ type, motive (primitive type))
    (named : ∀ name, motive (named name)) (array : ∀ items, motive items → motive (array items))
    (map : ∀ values, motive values → motive (map values))
    (union : ∀ branches, (∀ b ∈ branches, motive b) → motive (union branches)) (s : Schema) :
    motive s :=
  Schema.rec (motive_1 := motive) (motive_2 := fun ss => ∀ b ∈ ss, motive b)
    primitive array map union named (fun _ h => absurd h List.not_mem_nil)
    (fun _ _ hs hss => List.forall_mem_cons.2 ⟨hs, hss⟩) s

end Schema

namespace Protocol

/-! ## The conditions -/

mutual

/-- References stand for types and unions are well formed, at every depth of the schema. -/
def AllowsSchema (p : Protocol) : Schema → Prop
  | .primitive _ => True
  | .named name => p.hasType name
  | .array items => AllowsSchema p items
  | .map values => AllowsSchema p values
  | .union branches =>
    branches ≠ [] ∧ (∀ b ∈ branches, ¬ b.isUnion) ∧ (branches.map p.branchKey).Nodup
      ∧ AllowsSchemas p branches
termination_by structural s => s

/-- All of the schemas are allowed. -/
def AllowsSchemas (p : Protocol) : List Schema → Prop
  | [] => True
  | s :: ss => AllowsSchema p s ∧ AllowsSchemas p ss
termination_by structural ss => ss

end

/-- Fields or parameters are well formed. -/
structure AllowsFields (p : Protocol) (fields : List Field) : Prop where
  isIdentifier : ∀ f ∈ fields, Name.isIdentifier f.name
  nodup : (fields.map Field.name).Nodup
  schema : ∀ f ∈ fields, p.AllowsSchema f.schema

/-- What a named type consists of is well formed. -/
def AllowsBody (p : Protocol) : TypeBody → Prop
  | .record _ fields => p.AllowsFields fields
  | .symbols symbols => (∀ s ∈ symbols, Name.isIdentifier s) ∧ symbols.Nodup
  | .fixed size => size ≠ 0

/-- A named type is well formed. -/
structure AllowsType (p : Protocol) (t : NamedType) : Prop where
  isIdentifier : Name.isIdentifier t.name
  isDotted : ∀ space ∈ t.space, Name.isDotted space
  body : p.AllowsBody t.body

/-- A message is well formed. -/
structure AllowsMessage (p : Protocol) (m : Message) : Prop where
  isIdentifier : Name.isIdentifier m.name
  request : p.AllowsFields m.request
  response : p.AllowsSchema m.response
  errors : ∀ e ∈ m.errors, ∃ t, p.getType? e = some t ∧ t.isError
  oneWay : m.oneWay → m.response.isNull ∧ m.errors = []

/-- A protocol is well formed. -/
structure WellFormed (p : Protocol) : Prop where
  isIdentifier : Name.isIdentifier p.name
  isDotted : ∀ space ∈ p.space, Name.isDotted space
  nodup_types : (p.types.map p.fullNameOf).Nodup
  types : ∀ t ∈ p.types, p.AllowsType t
  nodup_messages : (p.messages.map Message.name).Nodup
  messages : ∀ m ∈ p.messages, p.AllowsMessage m

theorem allowsSchemas_iff {p : Protocol} {ss : List Schema} :
    p.AllowsSchemas ss ↔ ∀ s ∈ ss, p.AllowsSchema s := by
  induction ss with
  | nil => simp [AllowsSchemas]
  | cons s ss ih => simp [AllowsSchemas, ih]

/-! ## Each check decides its condition -/

/-- A list of keys that differ from each other and from those seen before, one step further:
the first key is not seen, and the others differ from it as well. -/
theorem fresh_cons_iff {α : Type} (key : α → String) (a : α) (as : List α) (seen : List String) :
    ((as.map key).Nodup ∧ ∀ b ∈ as, key b ∉ key a :: seen) ∧ key a ∉ seen ↔
      ((a :: as).map key).Nodup ∧ ∀ b ∈ a :: as, key b ∉ seen := by
  simp only [List.map_cons, List.nodup_cons, List.mem_map, List.mem_cons, not_or, not_exists,
    not_and, forall_eq_or_imp]
  constructor
  · rintro ⟨⟨hnodup, hfresh⟩, ha⟩
    exact ⟨⟨fun b hb => (hfresh b hb).1, hnodup⟩, ha, fun b hb => (hfresh b hb).2⟩
  · rintro ⟨⟨hne, hnodup⟩, ha, hfresh⟩
    exact ⟨⟨hnodup, fun b hb => ⟨hne b hb, hfresh b hb⟩⟩, ha⟩

variable {p : Protocol}

@[simp] theorem require_eq_ok_iff {condition : Bool} {flaw : Flaw} :
    require condition flaw = .ok () ↔ condition := by
  cases condition <;> simp [require]

@[simp] theorem andThen_eq_ok_iff {first : Check} {second : Unit → Check} :
    (first >>= second) = .ok () ↔ first = .ok () ∧ second () = .ok () := by
  cases first <;> simp [bind, Except.bind]

theorem not_contains_iff {seen : List String} {key : String} :
    (!seen.contains key) = true ↔ key ∉ seen := by
  simp

theorem checkSpace_eq_ok_iff {space : Option String} {owner : SpaceOwner} :
    checkSpace space owner = .ok () ↔ ∀ s ∈ space, Name.isDotted s := by
  cases space <;> simp [checkSpace]

mutual

theorem checkSchema_eq_ok_iff {place : Place} :
    (s : Schema) → (p.checkSchema place s = .ok () ↔ p.AllowsSchema s)
  | .primitive _ => by simp [checkSchema, AllowsSchema]
  | .named _ => by simp [checkSchema, AllowsSchema]
  | .array items => by simpa [checkSchema, AllowsSchema] using checkSchema_eq_ok_iff items
  | .map values => by simpa [checkSchema, AllowsSchema] using checkSchema_eq_ok_iff values
  | .union branches => by
    have h : p.checkBranches place [] branches = .ok () ↔ _ := checkBranches_eq_ok_iff branches []
    have hne : (!branches.isEmpty) = true ↔ branches ≠ [] := by simp
    simp only [checkSchema, AllowsSchema, andThen_eq_ok_iff, require_eq_ok_iff, h, hne,
      List.not_mem_nil, not_false_eq_true, implies_true, and_true]
    tauto

/-- The branches that follow branches with the keys `seen` must have other keys. -/
theorem checkBranches_eq_ok_iff {place : Place} :
    (ss : List Schema) → (seen : List String) →
      (p.checkBranches place seen ss = .ok () ↔
        ((∀ b ∈ ss, ¬ b.isUnion) ∧ p.AllowsSchemas ss) ∧
          (ss.map p.branchKey).Nodup ∧ ∀ b ∈ ss, p.branchKey b ∉ seen)
  | [], _ => by simp [checkBranches, AllowsSchemas]
  | s :: ss, seen => by
    have hs : p.checkSchema place s = .ok () ↔ _ := checkSchema_eq_ok_iff s
    have hss : p.checkBranches place (p.branchKey s :: seen) ss = .ok () ↔ _ :=
      checkBranches_eq_ok_iff ss (p.branchKey s :: seen)
    have hunion : (!s.isUnion) = true ↔ ¬ s.isUnion := by simp
    simp only [checkBranches, AllowsSchemas, andThen_eq_ok_iff, require_eq_ok_iff, hs, hss, hunion,
      not_contains_iff, ← fresh_cons_iff]
    simp only [List.forall_mem_cons]
    tauto

end

theorem allowsFields_cons_iff {f : Field} {fields : List Field} :
    p.AllowsFields (f :: fields) ↔ (Name.isIdentifier f.name ∧ p.AllowsSchema f.schema)
      ∧ f.name ∉ fields.map Field.name ∧ p.AllowsFields fields := by
  constructor
  · rintro ⟨hnames, hnodup, hschemas⟩
    simp only [List.forall_mem_cons, List.map_cons, List.nodup_cons] at hnames hnodup hschemas
    exact ⟨⟨hnames.1, hschemas.1⟩, hnodup.1, ⟨hnames.2, hnodup.2, hschemas.2⟩⟩
  · rintro ⟨⟨hname, hschema⟩, hne, hnames, hnodup, hschemas⟩
    exact ⟨List.forall_mem_cons.2 ⟨hname, hnames⟩, List.nodup_cons.2 ⟨hne, hnodup⟩,
      List.forall_mem_cons.2 ⟨hschema, hschemas⟩⟩

theorem checkFields_eq_ok_iff {owner : FieldOwner} {fields : List Field} {seen : List String} :
    p.checkFields owner seen fields = .ok () ↔
      p.AllowsFields fields ∧ ∀ f ∈ fields, f.name ∉ seen := by
  induction fields generalizing seen with
  | nil =>
    have h : p.AllowsFields [] := ⟨by simp, by simp, by simp⟩
    simp [checkFields, h]
  | cons f fields ih =>
    simp only [checkFields, andThen_eq_ok_iff, require_eq_ok_iff, checkSchema_eq_ok_iff, ih,
      not_contains_iff, allowsFields_cons_iff, List.mem_cons, not_or, List.mem_map, not_exists,
      not_and, forall_eq_or_imp]
    constructor
    · rintro ⟨hseen, hname, hschema, hfields, hrest⟩
      exact ⟨⟨⟨hname, hschema⟩, fun g hg => (hrest g hg).1, hfields⟩, hseen,
        fun g hg => (hrest g hg).2⟩
    · rintro ⟨⟨⟨hname, hschema⟩, hne, hfields⟩, hseen, hrest⟩
      exact ⟨hseen, hname, hschema, hfields, fun g hg => ⟨hne g hg, hrest g hg⟩⟩

theorem checkSymbols_eq_ok_iff {enum : String} {symbols seen : List String} :
    checkSymbols enum seen symbols = .ok () ↔
      (∀ s ∈ symbols, Name.isIdentifier s) ∧ symbols.Nodup ∧ ∀ s ∈ symbols, s ∉ seen := by
  induction symbols generalizing seen with
  | nil => simp [checkSymbols]
  | cons s symbols ih =>
    have h := fresh_cons_iff id s symbols seen
    simp only [List.map_id, id] at h
    simp only [checkSymbols, andThen_eq_ok_iff, require_eq_ok_iff, ih, not_contains_iff, ← h]
    simp only [List.forall_mem_cons]
    tauto

theorem checkBody_eq_ok_iff {t : NamedType} :
    p.checkBody t = .ok () ↔ p.AllowsBody t.body := by
  unfold checkBody AllowsBody
  split
  · simp [checkFields_eq_ok_iff, *]
  · simp [checkSymbols_eq_ok_iff, *]
  · simp [*]

theorem allowsType_iff {t : NamedType} :
    p.AllowsType t ↔ Name.isIdentifier t.name ∧ (∀ space ∈ t.space, Name.isDotted space)
      ∧ p.AllowsBody t.body :=
  ⟨fun h => ⟨h.1, h.2, h.3⟩, fun h => ⟨h.1, h.2.1, h.2.2⟩⟩

theorem checkTypes_eq_ok_iff {types : List NamedType} {seen : List String} :
    p.checkTypes seen types = .ok () ↔
      (∀ t ∈ types, p.AllowsType t) ∧
        (types.map p.fullNameOf).Nodup ∧ ∀ t ∈ types, p.fullNameOf t ∉ seen := by
  induction types generalizing seen with
  | nil => simp [checkTypes]
  | cons t types ih =>
    simp only [checkTypes, andThen_eq_ok_iff, require_eq_ok_iff, checkSpace_eq_ok_iff,
      checkBody_eq_ok_iff, ih, not_contains_iff, ← fresh_cons_iff]
    simp only [List.forall_mem_cons, allowsType_iff]
    tauto

theorem checkErrors_eq_ok_iff {message : String} {errors : List String} :
    p.checkErrors message errors = .ok () ↔
      ∀ e ∈ errors, ∃ t, p.getType? e = some t ∧ t.isError := by
  induction errors with
  | nil => simp [checkErrors]
  | cons e errors ih =>
    cases h : p.getType? e with
    | none => simp [checkErrors, h, throw, throwThe, MonadExceptOf.throw]
    | some t => simp [checkErrors, h, ih]

theorem checkMessage_eq_ok_iff {m : Message} :
    p.checkMessage m = .ok () ↔ p.AllowsMessage m := by
  simp only [checkMessage, andThen_eq_ok_iff, require_eq_ok_iff, checkFields_eq_ok_iff,
    checkSchema_eq_ok_iff, checkErrors_eq_ok_iff]
  constructor
  · rintro ⟨hname, ⟨hrequest, -⟩, hresponse, herrors, honeWay⟩
    exact ⟨hname, hrequest, hresponse, herrors, fun h => by simpa [h] using honeWay⟩
  · rintro ⟨hname, hrequest, hresponse, herrors, honeWay⟩
    refine ⟨hname, ⟨hrequest, by simp⟩, hresponse, herrors, ?_⟩
    cases h : m.oneWay
    · rfl
    · simpa [h] using honeWay

theorem checkMessages_eq_ok_iff {messages : List Message} {seen : List String} :
    p.checkMessages seen messages = .ok () ↔
      (∀ m ∈ messages, p.AllowsMessage m) ∧
        (messages.map Message.name).Nodup ∧ ∀ m ∈ messages, m.name ∉ seen := by
  induction messages generalizing seen with
  | nil => simp [checkMessages]
  | cons m messages ih =>
    simp only [checkMessages, andThen_eq_ok_iff, require_eq_ok_iff, checkMessage_eq_ok_iff, ih,
      not_contains_iff, ← fresh_cons_iff]
    simp only [List.forall_mem_cons]
    tauto

/-- **The check decides well-formedness.**  It passes exactly on the protocols that are
well formed. -/
theorem validate_eq_ok_iff : p.validate = .ok () ↔ p.WellFormed := by
  simp only [validate, andThen_eq_ok_iff, require_eq_ok_iff, checkSpace_eq_ok_iff,
    checkTypes_eq_ok_iff, checkMessages_eq_ok_iff]
  constructor
  · rintro ⟨hname, hspace, ⟨htypes, hnames, -⟩, hmessages, hmessageNames, -⟩
    exact ⟨hname, hspace, hnames, htypes, hmessageNames, hmessages⟩
  · rintro ⟨hname, hspace, hnames, htypes, hmessageNames, hmessages⟩
    exact ⟨hname, hspace, ⟨htypes, hnames, by simp⟩, hmessages, hmessageNames, by simp⟩

end Protocol

end IdlCompiler
