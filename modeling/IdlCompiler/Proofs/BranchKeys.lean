/-
# Keys of branches

The check of a protocol compares the branches of a union by their keys.  The key of a primitive
type or a container is a word for its kind, and the key of a reference is the full name of the type
it stands for.  The words and the full names are texts alike, and nothing keeps a protocol from
calling a type like a kind: a record `array` outside of namespaces has the key of a sequence.

Main statements: `Protocol.sameBranch_named_iff`, references stand for one type exactly if their
types have one full name; `Protocol.IsBranch.branchKey_eq_iff`, two branches have one key exactly if
they are the same or one is a reference to a type that is called like the other; and
`Protocol.branchKey_tells_apart_iff`, keys tell all branches apart exactly if no reference stands
for a type that is called like a kind.
-/
import IdlCompiler.Proofs.Resolution

namespace IdlCompiler

/-! ## Words for kinds -/

namespace Primitive

theorem name_injective : Function.Injective name := fun p q h =>
  Option.some.inj (by rw [← ofName?_name p, h, ofName?_name])

/-- Primitive types are called otherwise than the other kinds. -/
theorem name_ne (type : Primitive) :
    type.name ≠ "array" ∧ type.name ≠ "map" ∧ type.name ≠ "union" := by
  cases type <;> decide

end Primitive

namespace Schema

/-- The word for the kind of a schema that is no reference. -/
def kindWord? : Schema → Option String
  | primitive type => some type.name
  | array _ => some "array"
  | map _ => some "map"
  | union _ => some "union"
  | named _ => none

/-- The words for the kinds of schemas that may be branches. -/
def kindWords : List String := Primitive.all.map Primitive.name ++ ["array", "map"]

variable {s : Schema}

theorem kindWord?_eq_name_iff {type : Primitive} :
    s.kindWord? = some type.name ↔ s = primitive type := by
  have hne := type.name_ne
  cases s with
  | primitive other =>
    rw [kindWord?, Option.some.injEq, Primitive.name_injective.eq_iff, primitive.injEq]
  | _ => simp [kindWord?, hne.1.symm, hne.2.1.symm, hne.2.2.symm]

theorem kindWord?_eq_array_iff : s.kindWord? = some "array" ↔ ∃ items, s = array items := by
  cases s <;> simp [kindWord?, Primitive.name_ne]

theorem kindWord?_eq_map_iff : s.kindWord? = some "map" ↔ ∃ values, s = map values := by
  cases s <;> simp [kindWord?, Primitive.name_ne]

theorem mem_kindWords_iff {word : String} :
    word ∈ kindWords ↔ ∃ b : Schema, ¬ b.isUnion ∧ b.kindWord? = some word := by
  constructor
  · intro h
    obtain h | h := List.mem_append.1 h
    · obtain ⟨type, -, rfl⟩ := List.mem_map.1 h
      exact ⟨.primitive type, by simp [isUnion], rfl⟩
    · obtain rfl | rfl : word = "array" ∨ word = "map" := by simpa using h
      · exact ⟨.array .null, by simp [isUnion], rfl⟩
      · exact ⟨.map .null, by simp [isUnion], rfl⟩
  · rintro ⟨b, hunion, hword⟩
    cases b with
    | primitive type =>
      obtain rfl := Option.some.inj hword
      exact List.mem_append_left _ (List.mem_map_of_mem (by cases type <;> decide))
    | array => obtain rfl := Option.some.inj hword; decide
    | map => obtain rfl := Option.some.inj hword; decide
    | union => exact absurd rfl hunion
    | named => cases hword

end Schema

namespace Protocol

/-! ## Branches that are the same -/

/-- A schema that may be a branch of a union: it is no union itself, and if it is a reference, then
a type is found for it. -/
structure IsBranch (p : Protocol) (b : Schema) : Prop where
  not_isUnion : ¬ b.isUnion
  found : ∀ name, b = .named name → ∃ t, p.getType? name = some t

/-- Two branches are the same: one primitive type, two sequences, two dictionaries, or references to
one of the types, which stands at one position. -/
inductive SameBranch (p : Protocol) : Schema → Schema → Prop
  | primitive (type : Primitive) : SameBranch p (.primitive type) (.primitive type)
  | array (items items' : Schema) : SameBranch p (.array items) (.array items')
  | map (values values' : Schema) : SameBranch p (.map values) (.map values')
  | named {name name' : String} {i : Nat} (at_name : p.resolve? name = some i)
    (at_name' : p.resolve? name' = some i) : SameBranch p (.named name) (.named name')

/-- The branch `a` is a reference to a type whose full name is the word for the kind of `b`. -/
def TakesWord (p : Protocol) (a b : Schema) : Prop :=
  ∃ name t, a = .named name ∧ p.getType? name = some t ∧ b.kindWord? = some (p.fullNameOf t)

variable {p : Protocol} {a b : Schema} {m n v w : String} {t u : NamedType}

theorem branchKey_of_kindWord? (h : b.kindWord? = some w) : p.branchKey b = w := by
  cases b <;> first | exact Option.some.inj h | cases h

theorem branchKey_named (h : p.getType? n = some t) : p.branchKey (.named n) = p.fullNameOf t := by
  rw [branchKey, h]

/-- Another branch is the same as one that is no reference exactly if it has its word. -/
theorem sameBranch_iff_of_kindWord? (ha : ¬ a.isUnion) (hw : a.kindWord? = some w) :
    p.SameBranch a b ↔ b.kindWord? = some w := by
  cases a with
  | primitive type =>
    obtain rfl := Option.some.inj hw
    rw [Schema.kindWord?_eq_name_iff]
    exact ⟨fun | .primitive _ => rfl, by rintro rfl; exact .primitive type⟩
  | array items =>
    obtain rfl := Option.some.inj hw
    rw [Schema.kindWord?_eq_array_iff]
    exact ⟨fun | .array _ items' => ⟨items', rfl⟩, fun ⟨items', h⟩ => h ▸ .array items items'⟩
  | map values =>
    obtain rfl := Option.some.inj hw
    rw [Schema.kindWord?_eq_map_iff]
    exact ⟨fun | .map _ values' => ⟨values', rfl⟩, fun ⟨values', h⟩ => h ▸ .map values values'⟩
  | union => exact absurd rfl ha
  | named => cases hw

theorem SameBranch.symm (h : p.SameBranch a b) : p.SameBranch b a := by
  cases h with
  | primitive type => exact .primitive type
  | array items items' => exact .array items' items
  | map values values' => exact .map values' values
  | named h h' => exact .named h' h

theorem sameBranch_comm : p.SameBranch a b ↔ p.SameBranch b a := ⟨.symm, .symm⟩

/-- **References are the same branch exactly if their types have one full name**, in a protocol
whose types have different ones. -/
theorem sameBranch_named_iff (hnames : (p.types.map p.fullNameOf).Nodup)
    (hm : p.getType? m = some t) (hn : p.getType? n = some u) :
    p.SameBranch (.named m) (.named n) ↔ p.fullNameOf t = p.fullNameOf u := by
  obtain ⟨i, hi, hti⟩ := Option.bind_eq_some_iff.1 hm
  obtain ⟨j, hj, huj⟩ := Option.bind_eq_some_iff.1 hn
  constructor
  · rintro ⟨⟩
    rename_i k hk hk'
    obtain rfl : i = k := Option.some.inj (hi.symm.trans hk)
    obtain rfl : j = i := Option.some.inj (hj.symm.trans hk')
    rw [Option.some.inj (hti.symm.trans huj)]
  · intro heq
    have hnamed (k : Nat) (v : NamedType) (h : p.types[k]? = some v) :
        (p.types.map p.fullNameOf)[k]? = some (p.fullNameOf v) := by
      rw [List.getElem?_map, h, Option.map_some]
    obtain ⟨hlt, -⟩ := List.getElem?_eq_some_iff.1 (hnamed i t hti)
    obtain rfl : i = j := (List.getElem?_inj hlt hnames).1
      ((hnamed i t hti).trans (heq ▸ (hnamed j u huj).symm))
    exact .named hi hj

/-! ## What a key tells -/

/-- A branch that is no reference has a word, which is its key. -/
theorem IsBranch.kindWord?_or_named (h : p.IsBranch b) :
    b.kindWord? = some (p.branchKey b) ∨ ∃ name t, b = .named name ∧ p.getType? name = some t := by
  cases b with
  | named name =>
    obtain ⟨t, ht⟩ := h.found name rfl
    exact .inr ⟨name, t, rfl, ht⟩
  | _ => exact .inl rfl

/-- A reference has the key of a branch that is none exactly if its type takes the word. -/
theorem takesWord_iff (hn : p.getType? n = some t) (hw : b.kindWord? = some w) :
    p.TakesWord (.named n) b ↔ p.fullNameOf t = w := by
  constructor
  · rintro ⟨name, u, hname, hu, hword⟩
    obtain rfl := Schema.named.inj hname
    obtain rfl := Option.some.inj (hn.symm.trans hu)
    exact Option.some.inj (hword.symm.trans hw)
  · rintro rfl
    exact ⟨n, t, rfl, hn, hw⟩

theorem not_takesWord_of_kindWord? (hw : a.kindWord? = some w) : ¬ p.TakesWord a b := by
  rintro ⟨name, t, rfl, -⟩
  cases hw

theorem not_takesWord_named : ¬ p.TakesWord a (.named n) := by
  rintro ⟨name, t, -, -, hword⟩
  cases hword

/-- When a reference and a branch that is none have one key. -/
theorem branchKey_named_eq_iff (hn : p.getType? n = some t) (hb : ¬ b.isUnion)
    (hw : b.kindWord? = some w) :
    p.branchKey (.named n) = p.branchKey b ↔
      p.SameBranch (.named n) b ∨ p.TakesWord (.named n) b ∨ p.TakesWord b (.named n) := by
  have hsame : ¬ p.SameBranch (.named n) b := fun h =>
    absurd ((sameBranch_iff_of_kindWord? hb hw).1 h.symm) (by simp [Schema.kindWord?])
  rw [branchKey_named hn, branchKey_of_kindWord? hw, takesWord_iff hn hw]
  simp [hsame, not_takesWord_named]

/-- **When two branches have one key**: they are the same, or one is a reference to a type that is
called like the other. -/
theorem IsBranch.branchKey_eq_iff (hnames : (p.types.map p.fullNameOf).Nodup) (ha : p.IsBranch a)
    (hb : p.IsBranch b) :
    p.branchKey a = p.branchKey b ↔ p.SameBranch a b ∨ p.TakesWord a b ∨ p.TakesWord b a := by
  obtain hwa | ⟨m, t, rfl, ht⟩ := ha.kindWord?_or_named <;>
    obtain hwb | ⟨n, u, rfl, hu⟩ := hb.kindWord?_or_named
  · rw [sameBranch_iff_of_kindWord? ha.not_isUnion hwa, hwb, Option.some.injEq, eq_comm]
    simp [not_takesWord_of_kindWord? hwa, not_takesWord_of_kindWord? hwb]
  · rw [eq_comm, branchKey_named_eq_iff hu ha.not_isUnion hwa, sameBranch_comm,
      or_comm (a := p.TakesWord _ a)]
  · exact branchKey_named_eq_iff ht hb.not_isUnion hwb
  · rw [branchKey_named ht, branchKey_named hu, sameBranch_named_iff hnames ht hu]
    simp [not_takesWord_named]

/-- No reference stands for a type that is called like a kind. -/
def HasFreeWords (p : Protocol) : Prop :=
  ∀ name t, p.getType? name = some t → p.fullNameOf t ∉ Schema.kindWords

/-- **Keys tell branches apart except where a type is called like a kind.**  In a protocol whose
types have different full names, two branches whose references are found have one key exactly if
they are one primitive type, two sequences, two dictionaries or references to one type, or if one is
a reference to a type whose full name is the word for the kind of the other.  So the key is exact on
all branches exactly if no reference stands for a type that is called like a kind. -/
theorem branchKey_tells_apart_iff (hnames : (p.types.map p.fullNameOf).Nodup) :
    (∀ a b, p.IsBranch a → p.IsBranch b →
      (p.branchKey a = p.branchKey b ↔ p.SameBranch a b ∨ p.TakesWord a b ∨ p.TakesWord b a)) ∧
    ((∀ a b, p.IsBranch a → p.IsBranch b →
      (p.branchKey a = p.branchKey b ↔ p.SameBranch a b)) ↔ p.HasFreeWords) := by
  have hkey : ∀ a b, p.IsBranch a → p.IsBranch b → (p.branchKey a = p.branchKey b ↔ _) :=
    fun a b ha hb => ha.branchKey_eq_iff hnames hb
  refine ⟨hkey, fun hexact name t ht hword => ?_, fun hfree a b ha hb => ?_⟩
  · -- a type that takes a word has the key of a branch of that kind
    obtain ⟨b, hunion, hb⟩ := Schema.mem_kindWords_iff.1 hword
    have hbranch : p.IsBranch b := ⟨hunion, fun n hn => by rw [hn] at hb; cases hb⟩
    have hnamed : p.IsBranch (.named name) := ⟨by simp [Schema.isUnion], fun n hn => by
      obtain rfl := Schema.named.inj hn
      exact ⟨t, ht⟩⟩
    have hsame := (hexact _ _ hnamed hbranch).1 (by
      rw [branchKey_named ht, branchKey_of_kindWord? hb])
    exact absurd ((sameBranch_iff_of_kindWord? hunion hb).1 hsame.symm) (by
      simp [Schema.kindWord?])
  · have hnot : ∀ {a b}, p.IsBranch b → ¬ p.TakesWord a b := by
      rintro a b hb ⟨name, t, -, ht, hword⟩
      exact hfree name t ht (Schema.mem_kindWords_iff.2 ⟨b, hb.not_isUnion, hword⟩)
    rw [hkey a b ha hb]
    simp [hnot ha, hnot hb]

/-- A protocol without a namespace that calls a record like a sequence. -/
def arrayRecord : Protocol :=
  (empty "P" none).addTypes [
    { name := "array", body := .record false [] },
    { name := "R"
      body := .record false
        [{ name := "x", schema := .union [.named "array", .array (.primitive .int)] }] }]

/-- A union of the record and a sequence is refused, as both have the key `array`, although they are
not the same; all full names differ and are identifiers. -/
theorem arrayRecord_is_refused :
    (arrayRecord.types.map arrayRecord.fullNameOf).Nodup ∧
      (∀ t ∈ arrayRecord.types, Name.isIdentifier (arrayRecord.fullNameOf t)) ∧
      arrayRecord.IsBranch (.named "array") ∧ arrayRecord.IsBranch (.array (.primitive .int)) ∧
      arrayRecord.branchKey (.named "array") = arrayRecord.branchKey (.array (.primitive .int)) ∧
      ¬ arrayRecord.SameBranch (.named "array") (.array (.primitive .int)) ∧
      arrayRecord.validate =
        .error (.invalidUnion (.field "x" (.record "R")) (.duplicateBranch "array")) := by
  have hnames : (arrayRecord.types.map arrayRecord.fullNameOf).Nodup := by decide
  have hnamed : arrayRecord.IsBranch (.named "array") :=
    ⟨by decide, fun n hn => ⟨_, by obtain rfl := Schema.named.inj hn; rfl⟩⟩
  have harray : arrayRecord.IsBranch (.array (.primitive .int)) := ⟨by decide, fun n hn => by
    cases hn⟩
  obtain ⟨hkey, -⟩ := branchKey_tells_apart_iff hnames
  refine ⟨hnames, by decide, hnamed, harray, (hkey _ _ hnamed harray).2 ?_, nofun, rfl⟩
  exact .inr (.inl ⟨"array", _, rfl, rfl, rfl⟩)

end Protocol

end IdlCompiler
