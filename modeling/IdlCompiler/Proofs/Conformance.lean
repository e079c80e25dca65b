/-
# The conditions of a well-formed protocol, one by one

`Protocol.WellFormed` follows the check of a protocol: it descends into schemas as the check
does.  This file says the same without any descent.  `Schema.Within` is the relation between a
schema and those that stand in it at any depth, and `Protocol.Conforms` lists the conditions
over all names, field lists and schemas of a protocol.  A namespace is a sequence of identifiers
with dots between them, `Name.isDotted_iff`, and a reference stands for a type if a type is
found, `Protocol.IsIndexed.hasType_iff`.  The main statement,
`Protocol.validate_eq_ok_iff_conforms`, says that the check passes exactly on the protocols that
meet the list.
-/
import IdlCompiler.Proofs.Resolution

namespace IdlCompiler

/-! ## Dotted names -/

namespace Text

variable {sep : Char} {t cs : List Char} {ts : List (List Char)}

theorem splitOn_append_cons (h : sep ∉ t) : splitOn sep (t ++ sep :: cs) = t :: splitOn sep cs := by
  induction t with
  | nil => simp [splitOn]
  | cons c t ih =>
    rw [List.mem_cons, not_or] at h
    rw [List.cons_append, splitOn, if_neg (Ne.symm h.1), ih h.2]

theorem splitOn_of_notMem (h : sep ∉ t) : splitOn sep t = [t] := by
  induction t with
  | nil => rfl
  | cons c t ih =>
    rw [List.mem_cons, not_or] at h
    rw [splitOn, if_neg (Ne.symm h.1), ih h.2]

/-- Parts without the separator are the parts of the text that joins them. -/
theorem splitOn_joinWith (hne : ts ≠ []) (h : ∀ t ∈ ts, sep ∉ t) :
    splitOn sep (joinWith [sep] ts) = ts := by
  induction ts with
  | nil => contradiction
  | cons t ts ih =>
    rw [List.forall_mem_cons] at h
    cases ts with
    | nil => exact splitOn_of_notMem h.1
    | cons u ts =>
      have hrest := ih (List.cons_ne_nil u ts) h.2
      rw [joinWith, List.append_assoc, List.singleton_append, splitOn_append_cons h.1, hrest]
      simp

theorem joinWith_eq_intercalate (sep : List Char) (ts : List (List Char)) :
    joinWith sep ts = sep.intercalate ts := by
  induction ts with
  | nil => rfl
  | cons t ts ih =>
    cases ts with
    | nil => simp [joinWith]
    | cons u ts =>
      rw [joinWith, ih]
      · simp
      · simp

end Text

namespace Name

theorem joinWith_segments (space : String) :
    String.intercalate "." (segments space) = space := by
  rw [← String.toList_inj, String.toList_intercalate, segments, List.map_map]
  simp [← Text.joinWith_eq_intercalate, Text.joinWith_splitOn, Function.comp_def]

theorem segments_intercalate {parts : List String} (hne : parts ≠ [])
    (h : ∀ s ∈ parts, ¬ hasDot s) : segments (String.intercalate "." parts) = parts := by
  have hdots : ∀ t ∈ parts.map String.toList, '.' ∉ t := by
    simpa [hasDot] using h
  have hjoined : (String.intercalate "." parts).toList =
      Text.joinWith ['.'] (parts.map String.toList) := by
    rw [String.toList_intercalate, ← Text.joinWith_eq_intercalate]
    rfl
  rw [segments, hjoined, Text.splitOn_joinWith (by simpa using hne) hdots]
  simp [Function.comp_def]

/-- A dotted name is a sequence of identifiers with dots between them. -/
theorem isDotted_iff {space : String} : isDotted space ↔
    ∃ parts ≠ [], (∀ s ∈ parts, isIdentifier s) ∧ space = String.intercalate "." parts := by
  rw [isDotted, List.all_eq_true]
  constructor
  · intro h
    have hne : segments space ≠ [] := by
      simpa [segments] using Text.splitOn_ne_nil '.' space.toList
    exact ⟨segments space, hne, h, (joinWith_segments space).symm⟩
  · rintro ⟨parts, hne, h, rfl⟩
    rwa [segments_intercalate hne fun s hs => not_hasDot_of_isIdentifier (h s hs)]

end Name

/-! ## Schemas at every depth -/

namespace Schema

/-- The schema stands in another one, at any depth; every schema stands in itself. -/
inductive Within (a : Schema) : Schema → Prop
  | self : Within a a
  | array {items : Schema} (inner : Within a items) : Within a (.array items)
  | map {values : Schema} (inner : Within a values) : Within a (.map values)
  | union {branches : List Schema} {b : Schema} (mem : b ∈ branches) (inner : Within a b) :
    Within a (.union branches)

variable {a items values : Schema} {branches : List Schema}

theorem within_array_iff : a.Within (.array items) ↔ a = .array items ∨ a.Within items := by
  constructor
  · rintro (_ | inner)
    · exact .inl rfl
    · exact .inr inner
  · rintro (rfl | inner)
    · exact .self
    · exact .array inner

theorem within_map_iff : a.Within (.map values) ↔ a = .map values ∨ a.Within values := by
  constructor
  · rintro (_ | _ | inner)
    · exact .inl rfl
    · exact .inr inner
  · rintro (rfl | inner)
    · exact .self
    · exact .map inner

theorem within_union_iff :
    a.Within (.union branches) ↔ a = .union branches ∨ ∃ b ∈ branches, a.Within b := by
  constructor
  · rintro (_ | _ | _ | ⟨mem, inner⟩)
    · exact .inl rfl
    · exact .inr ⟨_, mem, inner⟩
  · rintro (rfl | ⟨b, mem, inner⟩)
    · exact .self
    · exact .union mem inner

end Schema

namespace Protocol

variable {p : Protocol}

/-- What is asked of a schema itself, apart from the schemas inside it. -/
def AllowsHere (p : Protocol) : Schema → Prop
  | .named name => p.hasType name
  | .union branches =>
    branches ≠ [] ∧ (∀ b ∈ branches, ¬ b.isUnion) ∧ (branches.map p.branchKey).Nodup
  | _ => True

mutual

/-- A schema is allowed if everything that stands in it is allowed where it stands: one case
for each constructor of schemas. -/
theorem allowsSchema_iff_forall_within :
    (s : Schema) → (p.AllowsSchema s ↔ ∀ a : Schema, a.Within s → p.AllowsHere a)
  | .primitive type => by
    refine ⟨fun _ a ha => ?_, fun _ => trivial⟩
    cases ha
    trivial
  | .named name => by
    refine ⟨fun h a ha => ?_, fun h => h _ .self⟩
    cases ha
    exact h
  | .array items => by
    have hitems : p.AllowsSchema items ↔ _ := allowsSchema_iff_forall_within items
    simp only [AllowsSchema, Schema.within_array_iff, hitems, forall_eq_or_imp, AllowsHere,
      true_and]
  | .map values => by
    have hvalues : p.AllowsSchema values ↔ _ := allowsSchema_iff_forall_within values
    simp only [AllowsSchema, Schema.within_map_iff, hvalues, forall_eq_or_imp, AllowsHere,
      true_and]
  | .union branches => by
    have hbranches : p.AllowsSchemas branches ↔ _ := allowsSchemas_iff_forall_within branches
    simp only [AllowsSchema, Schema.within_union_iff, hbranches, forall_eq_or_imp, AllowsHere,
      and_assoc]

theorem allowsSchemas_iff_forall_within : (ss : List Schema) → (p.AllowsSchemas ss ↔
    ∀ a : Schema, (∃ s ∈ ss, a.Within s) → p.AllowsHere a)
  | [] => by simp [AllowsSchemas]
  | s :: ss => by
    have hs : p.AllowsSchema s ↔ _ := allowsSchema_iff_forall_within s
    have hss : p.AllowsSchemas ss ↔ _ := allowsSchemas_iff_forall_within ss
    simp only [AllowsSchemas, hs, hss, List.mem_cons, exists_eq_or_imp, or_imp, forall_and]

end

/-! ## References -/

theorem lt_length_of_find?_lookupOf {names : List String} {key : String} {i : Nat}
    (h : (lookupOf names).find? key = some i) : i < names.length := by
  rw [lookupOf, Table.find?_foldl_putNew, Table.find?_nil, Option.none_or] at h
  have hmem := Table.mem_of_find?_eq_some h
  rw [List.mem_zipIdx_iff_getElem?] at hmem
  exact (List.getElem?_eq_some_iff.mp hmem).1

theorem IsIndexed.lt_length_of_resolve? (h : p.IsIndexed) {reference : String} {i : Nat}
    (hi : p.resolve? reference = some i) : i < p.types.length := by
  rw [isIndexed_iff] at h
  have hfound : ∃ key, p.lookup.find? key = some i := by
    unfold resolve? at hi
    dsimp only at hi
    split at hi
    · exact ⟨_, hi⟩
    · split at hi
      · exact ⟨_, hi⟩
      · rcases Option.or_eq_some_iff.mp hi with hi | ⟨-, hi⟩
        · exact ⟨_, hi⟩
        · exact ⟨_, hi⟩
  obtain ⟨key, hkey⟩ := hfound
  rw [h] at hkey
  simpa using lt_length_of_find?_lookupOf hkey

/-- In an indexed protocol a reference stands for a type exactly if a type is found. -/
theorem IsIndexed.hasType_iff (h : p.IsIndexed) {reference : String} :
    p.hasType reference ↔ ∃ t, p.getType? reference = some t := by
  rw [hasType, Option.isSome_iff_exists]
  constructor
  · rintro ⟨i, hi⟩
    have hlt := h.lt_length_of_resolve? hi
    exact ⟨p.types[i], by rw [getType?, hi, Option.bind_some, List.getElem?_eq_getElem hlt]⟩
  · rintro ⟨t, ht⟩
    obtain ⟨i, hi, -⟩ := Option.bind_eq_some_iff.mp ht
    exact ⟨i, hi⟩

/-! ## All conditions -/

/-- The namespaces of a protocol and of its types, as far as they are written out. -/
def spaces (p : Protocol) : List String := p.space.toList ++ p.types.filterMap (·.space)

/-- The fields of each record and error and the parameters of each message. -/
def fieldLists (p : Protocol) : List (List Field) :=
  p.types.filterMap NamedType.fields? ++ p.messages.map Message.request

/-- The schemas of all fields, parameters and responses. -/
def schemas (p : Protocol) : List Schema :=
  p.fieldLists.flatten.map Field.schema ++ p.messages.map Message.response

/-- What is asked of a protocol, without an order. -/
structure Conforms (p : Protocol) : Prop where
  name : Name.isIdentifier p.name
  spaces : ∀ space ∈ p.spaces, ∃ parts ≠ [],
    (∀ s ∈ parts, Name.isIdentifier s) ∧ space = String.intercalate "." parts
  typeNames : ∀ t ∈ p.types, Name.isIdentifier t.name
  fullNames : (p.types.map p.fullNameOf).Nodup
  fieldNames : ∀ fields ∈ p.fieldLists,
    (∀ f ∈ fields, Name.isIdentifier f.name) ∧ (fields.map Field.name).Nodup
  references : ∀ s ∈ p.schemas, ∀ name, (Schema.named name).Within s →
    ∃ t, p.getType? name = some t
  unions : ∀ s ∈ p.schemas, ∀ branches, (Schema.union branches).Within s →
    branches ≠ [] ∧ (∀ b ∈ branches, ¬ b.isUnion) ∧ (branches.map p.branchKey).Nodup
  symbols : ∀ t ∈ p.types, ∀ symbols, t.body = .symbols symbols →
    (∀ s ∈ symbols, Name.isIdentifier s) ∧ symbols.Nodup
  sizes : ∀ t ∈ p.types, ∀ size, t.body = .fixed size → 0 < size
  messageNames : (∀ m ∈ p.messages, Name.isIdentifier m.name) ∧
    (p.messages.map Message.name).Nodup
  errors : ∀ m ∈ p.messages, ∀ e ∈ m.errors, ∃ t, p.getType? e = some t ∧ t.isError
  oneWay : ∀ m ∈ p.messages, m.oneWay → m.response = .null ∧ m.errors = []

theorem mem_spaces {space : String} :
    space ∈ p.spaces ↔ space ∈ p.space ∨ ∃ t ∈ p.types, space ∈ t.space := by
  simp [spaces]

theorem mem_fieldLists {fields : List Field} : fields ∈ p.fieldLists ↔
    (∃ t ∈ p.types, ∃ isError, t.body = .record isError fields) ∨
      ∃ m ∈ p.messages, m.request = fields := by
  have hfields : ∀ t : NamedType, t.fields? = some fields ↔
      ∃ isError, t.body = .record isError fields := by
    intro t
    unfold NamedType.fields?
    split
    · rename_i hbody
      simp [hbody]
    · rename_i hbody
      simp only [reduceCtorEq, false_iff, not_exists]
      exact fun isError h => hbody _ _ h
  simp [fieldLists, hfields]

theorem mem_schemas {s : Schema} : s ∈ p.schemas ↔
    (∃ fields ∈ p.fieldLists, ∃ f ∈ fields, f.schema = s) ∨
      ∃ m ∈ p.messages, m.response = s := by
  simp only [schemas, List.mem_append, List.mem_map, List.mem_flatten]
  constructor
  · rintro (⟨f, ⟨fields, hfields, hf⟩, rfl⟩ | h)
    · exact .inl ⟨fields, hfields, f, hf, rfl⟩
    · exact .inr h
  · rintro (⟨fields, hfields, f, hf, rfl⟩ | h)
    · exact .inl ⟨f, ⟨fields, hfields, hf⟩, rfl⟩
    · exact .inr h

/-- Schemas are allowed if the references and the unions in them are. -/
theorem forall_schemas_iff (hi : p.IsIndexed) : (∀ s ∈ p.schemas, p.AllowsSchema s) ↔
    (∀ s ∈ p.schemas, ∀ name, (Schema.named name).Within s → ∃ t, p.getType? name = some t) ∧
      ∀ s ∈ p.schemas, ∀ branches, (Schema.union branches).Within s →
        branches ≠ [] ∧ (∀ b ∈ branches, ¬ b.isUnion) ∧ (branches.map p.branchKey).Nodup := by
  simp only [allowsSchema_iff_forall_within]
  constructor
  · intro h
    exact ⟨fun s hs name hname => hi.hasType_iff.mp (h s hs _ hname),
      fun s hs branches hbranches => h s hs _ hbranches⟩
  · rintro ⟨hreferences, hunions⟩ s hs a ha
    cases a with
    | named name => exact hi.hasType_iff.mpr (hreferences s hs name ha)
    | union branches => exact hunions s hs branches ha
    | primitive type => trivial
    | array items => trivial
    | map values => trivial

theorem WellFormed.allowsFields (hp : p.WellFormed) {fields : List Field}
    (h : fields ∈ p.fieldLists) : p.AllowsFields fields := by
  rcases mem_fieldLists.mp h with ⟨t, ht, isError, hbody⟩ | ⟨m, hm, rfl⟩
  · have hallowed := (hp.types t ht).body
    rwa [hbody] at hallowed
  · exact (hp.messages m hm).request

theorem WellFormed.allowsSchema (hp : p.WellFormed) {s : Schema} (h : s ∈ p.schemas) :
    p.AllowsSchema s := by
  rcases mem_schemas.mp h with ⟨fields, hfields, f, hf, rfl⟩ | ⟨m, hm, rfl⟩
  · exact (hp.allowsFields hfields).schema f hf
  · exact (hp.messages m hm).response

theorem WellFormed.conforms (hp : p.WellFormed) (hi : p.IsIndexed) : p.Conforms := by
  obtain ⟨hreferences, hunions⟩ := (forall_schemas_iff hi).mp fun s hs => hp.allowsSchema hs
  refine {
    name := hp.isIdentifier
    spaces := fun space hspace => Name.isDotted_iff.mp ?_
    typeNames := fun t ht => (hp.types t ht).isIdentifier
    fullNames := hp.nodup_types
    fieldNames := fun fields h => ⟨(hp.allowsFields h).isIdentifier, (hp.allowsFields h).nodup⟩
    references := hreferences
    unions := hunions
    symbols := fun t ht symbols hbody => ?_
    sizes := fun t ht size hbody => ?_
    messageNames := ⟨fun m hm => (hp.messages m hm).isIdentifier, hp.nodup_messages⟩
    errors := fun m hm => (hp.messages m hm).errors
    oneWay := fun m hm honeWay => ?_ }
  · rcases mem_spaces.mp hspace with h | ⟨t, ht, h⟩
    · exact hp.isDotted space h
    · exact (hp.types t ht).isDotted space h
  · have hallowed := (hp.types t ht).body
    rwa [hbody] at hallowed
  · have hallowed := (hp.types t ht).body
    rw [hbody] at hallowed
    exact UInt64.pos_iff_ne_zero.mpr hallowed
  · obtain ⟨hnull, herrors⟩ := (hp.messages m hm).oneWay honeWay
    exact ⟨Schema.isNull_iff.mp hnull, herrors⟩

theorem Conforms.allowsFields (h : p.Conforms) (hschemas : ∀ s ∈ p.schemas, p.AllowsSchema s)
    {fields : List Field} (hfields : fields ∈ p.fieldLists) : p.AllowsFields fields := by
  obtain ⟨hnames, hnodup⟩ := h.fieldNames fields hfields
  exact ⟨hnames, hnodup, fun f hf =>
    hschemas f.schema (mem_schemas.mpr (.inl ⟨fields, hfields, f, hf, rfl⟩))⟩

theorem Conforms.allowsBody (h : p.Conforms) (hschemas : ∀ s ∈ p.schemas, p.AllowsSchema s)
    {t : NamedType} (ht : t ∈ p.types) : p.AllowsBody t.body := by
  cases hbody : t.body with
  | record isError fields =>
    exact h.allowsFields hschemas (mem_fieldLists.mpr (.inl ⟨t, ht, isError, hbody⟩))
  | symbols symbols => exact h.symbols t ht symbols hbody
  | fixed size => exact UInt64.pos_iff_ne_zero.mp (h.sizes t ht size hbody)

theorem Conforms.wellFormed (h : p.Conforms) (hi : p.IsIndexed) : p.WellFormed := by
  have hschemas := (forall_schemas_iff hi).mpr ⟨h.references, h.unions⟩
  refine {
    isIdentifier := h.name
    isDotted := fun space hspace =>
      Name.isDotted_iff.mpr (h.spaces space (mem_spaces.mpr (.inl hspace)))
    nodup_types := h.fullNames
    types := fun t ht => ⟨h.typeNames t ht, fun space hspace => ?_, h.allowsBody hschemas ht⟩
    nodup_messages := h.messageNames.2
    messages := fun m hm => ⟨h.messageNames.1 m hm, ?_, ?_, h.errors m hm, fun honeWay => ?_⟩ }
  · exact Name.isDotted_iff.mpr (h.spaces space (mem_spaces.mpr (.inr ⟨t, ht, hspace⟩)))
  · exact h.allowsFields hschemas (mem_fieldLists.mpr (.inr ⟨m, hm, rfl⟩))
  · exact hschemas m.response (mem_schemas.mpr (.inr ⟨m, hm, rfl⟩))
  · obtain ⟨hnull, herrors⟩ := h.oneWay m hm honeWay
    exact ⟨Schema.isNull_iff.mpr hnull, herrors⟩

/-- **The check passes exactly on the protocols that meet all conditions.** -/
theorem validate_eq_ok_iff_conforms (hi : p.IsIndexed) : p.validate = .ok () ↔ p.Conforms := by
  rw [validate_eq_ok_iff]
  exact ⟨fun hp => hp.conforms hi, fun h => h.wellFormed hi⟩

/-- A protocol with types of every kind, one of them in a namespace of its own, a union with
branches of every kind but unions, and messages with and without an answer. -/
def posts : Protocol :=
  { (empty "Posts" (some "org.posts")).addTypes [
      { name := "Kind", body := .symbols ["PLAIN", "RICH"] },
      { name := "Digest", space := some "org.base", body := .fixed 16 },
      { name := "Fault", body := .record true [{ name := "reason", schema := .primitive .string }] },
      { name := "Note"
        body := .record false [
          { name := "parent"
            schema := .union [.null, .named "Note", .array (.named "Kind"),
              .map (.union [.null, .named "org.base.Digest"])] },
          { name := "text", schema := .primitive .string }] }]
    with messages := [
      { name := "send"
        request := [{ name := "note", schema := .named "Note" }]
        response := .named "org.posts.Note"
        errors := ["Fault"] },
      { name := "ping", response := .null, oneWay := true }] }

/-- The conditions hold of a protocol that has all of what they are about. -/
theorem posts_conforms : posts.IsIndexed ∧ posts.validate = .ok () ∧ posts.Conforms := by
  have hindexed : posts.IsIndexed := by rfl
  have hvalid : posts.validate = .ok () := by rfl
  exact ⟨hindexed, hvalid, (validate_eq_ok_iff_conforms hindexed).mp hvalid⟩

end Protocol

end IdlCompiler
