/-
# Names that the language of generated code accepts

A protocol may use every identifier for a name, and generated code spells the names anew:
with capitals for types and variants, with small letters for fields, parameters and methods.
A word of the language that comes out as a field, a parameter or a method is escaped.  Names
with capitals are not escaped, and lose their underscores, so that a name may come out empty,
with a digit in front, or as the one word of the language that starts with a capital.

The main statement, `Target.isLegal_names_iff`, is the exact condition under which every
name in the code for a protocol is legal.
-/
import IdlCompiler.Proofs.Conformance
import IdlCompiler.Proofs.ItemNames
import IdlCompiler.Proofs.Mentions
import Mathlib

namespace IdlCompiler.Target.Name

open IdlCompiler.Name (forall_isPart not_isDigit_of_isStart)

/-! ## Legal names -/

/-- The keywords of the 2024 edition of the language, strict ones first. -/
def languageWords : List String := [
  "as", "async", "await", "break", "const", "continue", "crate", "dyn", "else", "enum",
  "extern", "false", "fn", "for", "if", "impl", "in", "let", "loop", "match", "mod", "move",
  "mut", "pub", "ref", "return", "self", "Self", "static", "struct", "super", "trait", "true",
  "type", "unsafe", "use", "where", "while",
  "abstract", "become", "box", "do", "final", "gen", "macro", "override", "priv", "try",
  "typeof", "unsized", "virtual", "yield"]

/-- Letters, digits and underscores without a digit in front, other than a single underscore
and the words of the language. -/
structure IsPlain (name : String) : Prop where
  head : ∃ c ∈ name.toList.head?, ¬ c.isDigit
  parts : ∀ c ∈ name.toList, c.isAlphanum ∨ c = '_'
  ne_underscore : name ≠ "_"
  notMem_languageWords : name ∉ languageWords

/-- A name is plain, or the raw form of a word that has one. -/
def IsLegal (name : String) : Prop :=
  IsPlain name ∨ ∃ word ∈ languageWords, word ∉ pathWords ∧ name = "r#" ++ word

/-- The words that are escaped are those of the language. -/
theorem mem_languageWords_iff {word : String} :
    word ∈ languageWords ↔ word ∈ keywords ∨ word ∈ pathWords := by
  rw [← List.mem_append]
  exact ⟨fun h => (by decide : languageWords ⊆ keywords ++ pathWords) h,
    fun h => (by decide : keywords ++ pathWords ⊆ languageWords) h⟩

/-! ## Characters of identifiers -/

variable {c : Char}

theorem ne_hyphen_of_isPart (hc : IdlCompiler.Name.isPart c) : c ≠ '-' :=
  forall_isPart (P := (· ≠ '-')) (by decide +kernel) hc

theorem isAlphanum_of_isPart (hc : IdlCompiler.Name.isPart c) (hne : c ≠ '_') : c.isAlphanum :=
  forall_isPart (P := fun c => c ≠ '_' → c.isAlphanum) (by decide +kernel) hc hne

theorem toUpper_of_isPart (hc : IdlCompiler.Name.isPart c) : c.toUpper.isLower = false ∧
    (c.toUpper = '_' ↔ c = '_') ∧ c.toUpper.isDigit = c.isDigit ∧
    IdlCompiler.Name.isPart c.toUpper :=
  forall_isPart (P := fun c => c.toUpper.isLower = false ∧ (c.toUpper = '_' ↔ c = '_') ∧
    c.toUpper.isDigit = c.isDigit ∧ IdlCompiler.Name.isPart c.toUpper) (by decide +kernel) hc

theorem toLower_of_isPart (hc : IdlCompiler.Name.isPart c) : (c.toLower = '_' ↔ c = '_') ∧
    c.toLower.isDigit = c.isDigit ∧ IdlCompiler.Name.isPart c.toLower :=
  forall_isPart (P := fun c => (c.toLower = '_' ↔ c = '_') ∧ c.toLower.isDigit = c.isDigit ∧
    IdlCompiler.Name.isPart c.toLower) (by decide +kernel) hc

theorem isLower_toLower_of_isUpperCase (hc : IdlCompiler.Name.isPart c)
    (hupper : Text.isUpperCase c) : c.toLower.isLower :=
  forall_isPart (P := fun c => Text.isUpperCase c → c.toLower.isLower) (by decide +kernel) hc hupper

/-! ## Names with capitals -/

/-- Letters and digits that do not start with a small letter. -/
structure IsCapitalized (name : String) : Prop where
  isAlphanum : ∀ c ∈ name.toList, c.isAlphanum
  head : ∀ c ∈ name.toList.head?, c.isLower = false

theorem IsCapitalized.isPart {name : String} (h : IsCapitalized name) :
    ∀ c ∈ name.toList, IdlCompiler.Name.isPart c := by
  intro c hc
  simp [IdlCompiler.Name.isPart, h.isAlphanum c hc]

/-- The character that a name starts with apart from underscores. -/
def first? (name : String) : Option Char := name.toList.find? (· ≠ '_')

/-- Behind its first underscores an identifier has a letter. -/
def StartsWithLetter (name : String) : Prop := ∃ c ∈ first? name, c.isDigit = false

instance (name : String) : Decidable (StartsWithLetter name) :=
  decidable_of_iff ((first? name).any fun c => !c.isDigit)
    (by simp [StartsWithLetter, Option.any_eq_true])

/-- A word of letters and digits with a capital in front. -/
def isCapitalWord (word : String) : Bool :=
  word.toList.all Char.isAlphanum && word.toList.head?.any Char.isUpper

theorem isCapitalized_of_isCapitalWord {word : String} (h : isCapitalWord word) :
    IsCapitalized word ∧ ∃ c ∈ word.toList.head?, c.isDigit = false := by
  obtain ⟨hall, hhead⟩ := (Bool.and_eq_true _ _).mp h
  obtain ⟨c, hc, hupper⟩ := (Option.any_eq_true _ _).1 hhead
  have hpart : IdlCompiler.Name.isPart c := by
    simp [IdlCompiler.Name.isPart, Char.isAlphanum, Char.isAlpha, hupper]
  have hclass : c.isLower = false ∧ c.isDigit = false :=
    forall_isPart (P := fun c => c.isUpper → c.isLower = false ∧ c.isDigit = false)
      (by decide +kernel) hpart hupper
  refine ⟨⟨List.all_eq_true.1 hall, fun d hd => ?_⟩, c, hc, hclass.2⟩
  obtain rfl : c = d := Option.mem_unique hc hd
  exact hclass.1

theorem IsCapitalized.append {name other : String} (h : IsCapitalized name)
    (h' : IsCapitalized other) : IsCapitalized (name ++ other) := by
  refine ⟨fun c hc => ?_, fun c hc => ?_⟩
  · rw [String.toList_append, List.mem_append] at hc
    exact hc.elim (h.isAlphanum c) (h'.isAlphanum c)
  · rw [String.toList_append, List.head?_append, Option.mem_def] at hc
    obtain hc | ⟨-, hc⟩ := Option.or_eq_some_iff.1 hc
    · exact h.head c hc
    · exact h'.head c hc

/-- The only word of the language that a name with capitals can be is the one that starts with
a capital. -/
theorem isLegal_iff_of_isCapitalized {name : String} (h : IsCapitalized name) :
    IsLegal name ↔ (∃ c ∈ name.toList.head?, c.isDigit = false) ∧ name ≠ "Self" := by
  have hwords : ∀ word ∈ languageWords, word ≠ "Self" → word.toList.head?.any Char.isLower := by
    decide +kernel
  constructor
  · rintro (hplain | ⟨word, -, -, rfl⟩)
    · obtain ⟨c, hc, hdigit⟩ := hplain.head
      refine ⟨⟨c, hc, by simpa using hdigit⟩, ?_⟩
      rintro rfl
      exact hplain.notMem_languageWords (by decide)
    · exact absurd (h.isAlphanum '#' (by simp [String.toList_append])) (by decide)
  · rintro ⟨⟨c, hc, hdigit⟩, hself⟩
    refine .inl ⟨⟨c, hc, by simpa using hdigit⟩, fun d hd => .inl (h.isAlphanum d hd), ?_, ?_⟩
    · rintro rfl
      exact absurd (h.isAlphanum '_' (by decide)) (by decide)
    · intro hword
      obtain ⟨d, hd, hlower⟩ := (Option.any_eq_true _ _).1 (hwords name hword hself)
      exact absurd (h.head d hd) (by simp [hlower])

/-- Behind a legal name with capitals another one does not matter: no word of the language
has a capital inside. -/
theorem IsCapitalized.isLegal_append {name other : String} (h : IsCapitalized name)
    (h' : IsCapitalized other) (hlegal : IsLegal name) : IsLegal (name ++ other) := by
  obtain ⟨⟨c, hc, hdigit⟩, hself⟩ := (isLegal_iff_of_isCapitalized h).1 hlegal
  refine (isLegal_iff_of_isCapitalized (h.append h')).2 ⟨⟨c, ?_, hdigit⟩, fun heq => ?_⟩
  · simp [String.toList_append, List.head?_append, Option.mem_def.1 hc]
  have hchars : name.toList ++ other.toList = ['S', 'e', 'l', 'f'] := by
    rw [← String.toList_append, heq]
    rfl
  cases hother : other.toList with
  | nil =>
    rw [hother, List.append_nil] at hchars
    exact hself (String.toList_inj.1 hchars)
  | cons d ds =>
    -- the other name would have to start inside of the word, with a small letter
    obtain ⟨cs, hcs⟩ : ∃ cs, name.toList = c :: cs := by
      cases hname : name.toList with
      | nil => simp [hname] at hc
      | cons a cs => exact ⟨cs, by simpa [hname] using hc⟩
    rw [hother, hcs, List.cons_append] at hchars
    have hd : d ∈ ['e', 'l', 'f'] := by
      rw [← (List.cons.inj hchars).2]
      simp
    have hlower := h'.head d (by simp [hother])
    have hsmall : ['e', 'l', 'f'].all Char.isLower := by decide
    exact absurd hlower (by simp [List.all_eq_true.1 hsmall d hd])

variable {cs : List Char} {start : Bool}

theorem isAlphanum_of_mem_pascalChars (hcs : ∀ c ∈ cs, IdlCompiler.Name.isPart c) :
    ∀ d ∈ pascalChars start cs, d.isAlphanum := by
  induction cs generalizing start with
  | nil => simp [pascalChars]
  | cons c cs ih =>
    obtain ⟨hc, hcs⟩ := List.forall_mem_cons.1 hcs
    rw [pascalChars]
    by_cases hunder : c = '_'
    · simpa [hunder] using ih hcs
    · have hupper := toUpper_of_isPart hc
      have hchar : (if start then c.toUpper else c).isAlphanum := by
        split
        · exact isAlphanum_of_isPart hupper.2.2.2 (mt hupper.2.1.1 hunder)
        · exact isAlphanum_of_isPart hc hunder
      simpa [hunder, ne_hyphen_of_isPart hc, hchar] using ih hcs

theorem head?_pascalChars (hcs : ∀ c ∈ cs, IdlCompiler.Name.isPart c) :
    (pascalChars true cs).head? = (cs.find? (· ≠ '_')).map Char.toUpper := by
  induction cs with
  | nil => rfl
  | cons c cs ih =>
    obtain ⟨hc, hcs⟩ := List.forall_mem_cons.1 hcs
    rw [pascalChars]
    by_cases hunder : c = '_'
    · simpa [hunder] using ih hcs
    · simp [hunder, ne_hyphen_of_isPart hc]

theorem isCapitalized_pascalChars (hcs : ∀ c ∈ cs, IdlCompiler.Name.isPart c) :
    IsCapitalized (String.ofList (pascalChars true cs)) := by
  refine ⟨fun d hd => isAlphanum_of_mem_pascalChars hcs d (by simpa using hd), fun d hd => ?_⟩
  rw [String.toList_ofList, head?_pascalChars hcs] at hd
  obtain ⟨c, hc, rfl⟩ := Option.map_eq_some_iff.1 hd
  exact (toUpper_of_isPart (hcs c (List.mem_of_find?_eq_some hc))).1

variable {name : String}

theorem forall_isPart_of_isIdentifier (h : IdlCompiler.Name.isIdentifier name) :
    ∀ c ∈ name.toList, IdlCompiler.Name.isPart c :=
  ((IdlCompiler.Name.isIdentifierChars_iff _).1 h).2

theorem isCapitalized_pascalCase (h : IdlCompiler.Name.isIdentifier name) :
    IsCapitalized (pascalCase name) :=
  isCapitalized_pascalChars (forall_isPart_of_isIdentifier h)

theorem isPart_of_mem_first? (h : IdlCompiler.Name.isIdentifier name) {c : Char}
    (hc : c ∈ first? name) : IdlCompiler.Name.isPart c :=
  forall_isPart_of_isIdentifier h c (List.mem_of_find?_eq_some hc)

theorem head?_pascalCase (h : IdlCompiler.Name.isIdentifier name) :
    (pascalCase name).toList.head? = (first? name).map Char.toUpper := by
  rw [pascalCase, String.toList_ofList, head?_pascalChars (forall_isPart_of_isIdentifier h), first?]

/-- The first character of a name with capitals is a digit exactly if that of the name is. -/
theorem exists_head?_pascalCase_iff (h : IdlCompiler.Name.isIdentifier name) :
    (∃ c ∈ (pascalCase name).toList.head?, c.isDigit = false) ↔ StartsWithLetter name := by
  rw [head?_pascalCase h, StartsWithLetter]
  cases hfirst : first? name with
  | none => simp
  | some c => simp [(toUpper_of_isPart (isPart_of_mem_first? h hfirst)).2.2.1]

/-- A name with capitals is legal if the name starts with a letter apart from underscores, and
does not become the word of the language that starts with a capital. -/
theorem isLegal_pascalCase_iff (h : IdlCompiler.Name.isIdentifier name) :
    IsLegal (pascalCase name) ↔
      StartsWithLetter name ∧ pascalCase name ≠ "Self" := by
  rw [isLegal_iff_of_isCapitalized (isCapitalized_pascalCase h), exists_head?_pascalCase_iff h]

theorem isPart_of_mem_variantChars (h : IdlCompiler.Name.isIdentifier name) :
    ∀ c ∈ (if name.toList.any Char.isLower then name.toList else name.toList.map Char.toLower),
      IdlCompiler.Name.isPart c := by
  have hparts := forall_isPart_of_isIdentifier h
  split
  · exact hparts
  · intro d hd
    obtain ⟨c, hc, rfl⟩ := List.mem_map.1 hd
    exact (toLower_of_isPart (hparts c hc)).2.2

theorem isCapitalized_variantName (h : IdlCompiler.Name.isIdentifier name) :
    IsCapitalized (variantName name) :=
  isCapitalized_pascalChars (isPart_of_mem_variantChars h)

/-- A variant is legal under the same condition, whether its symbol has small letters or not. -/
theorem isLegal_variantName_iff (h : IdlCompiler.Name.isIdentifier name) :
    IsLegal (variantName name) ↔
      StartsWithLetter name ∧ variantName name ≠ "Self" := by
  have hparts := forall_isPart_of_isIdentifier h
  have hchars := isPart_of_mem_variantChars h
  rw [isLegal_iff_of_isCapitalized (isCapitalized_variantName h)]
  refine and_congr_left fun _ => ?_
  rw [variantName, String.toList_ofList, head?_pascalChars hchars, StartsWithLetter]
  -- small letters instead of capitals change neither the underscores nor the digits
  have hlower : (name.toList.map Char.toLower).find? (· ≠ '_') =
      (first? name).map Char.toLower := by
    rw [List.find?_map, first?]
    congr 1
    exact List.find?_congr fun c hc => by simp [(toLower_of_isPart (hparts c hc)).1]
  split
  · rw [← first?]
    cases hc : first? name with
    | none => simp
    | some c => simp [(toUpper_of_isPart (isPart_of_mem_first? h hc)).2.2.1]
  · rw [hlower]
    cases hc : first? name with
    | none => simp
    | some c =>
      have hsmall := toLower_of_isPart (isPart_of_mem_first? h hc)
      have hdigit := (toUpper_of_isPart hsmall.2.2).2.2.1.trans hsmall.2.1
      simp only [Option.map_some, Option.mem_def, Option.some.injEq, exists_eq_left', hdigit]

/-! ## Names with small letters -/

theorem isPart_of_mem_snakeChars {after : Bool} (hcs : ∀ c ∈ cs, IdlCompiler.Name.isPart c) :
    ∀ d ∈ snakeChars after cs, IdlCompiler.Name.isPart d := by
  induction cs generalizing after with
  | nil => simp [snakeChars]
  | cons c cs ih =>
    obtain ⟨hc, hcs⟩ := List.forall_mem_cons.1 hcs
    have hsmall := (toLower_of_isPart hc).2.2
    have hunder : IdlCompiler.Name.isPart '_' := by decide
    rw [snakeChars]
    split
    · split <;> simpa [hsmall, hunder] using ih hcs
    · simpa [hc] using ih hcs

/-- The first character stays what it is or becomes a small letter. -/
theorem exists_snakeCase_eq (h : IdlCompiler.Name.isIdentifier name) :
    ∃ c cs, (snakeCase name).toList = c :: cs ∧ IdlCompiler.Name.isStart c ∧
      (c :: cs = ['_'] ↔ name = "_") := by
  obtain ⟨⟨c, hc, hstart⟩, hparts⟩ := (IdlCompiler.Name.isIdentifierChars_iff _).1 h
  have hnil : ∀ after cs, snakeChars after cs = [] ↔ cs = [] := by
    intro after cs
    cases cs with
    | nil => simp [snakeChars]
    | cons c cs =>
      rw [snakeChars]
      split
      · split <;> simp
      · simp
  have hname : ∀ cs, name.toList = cs → (cs = ['_'] ↔ name = "_") := by
    rintro cs rfl
    rw [← String.toList_inj]
    rfl
  cases hcs : name.toList with
  | nil => simp [hcs] at hc
  | cons d cs =>
    obtain rfl : d = c := by simpa [hcs] using hc
    have hpart := hparts d (by simp [hcs])
    rw [snakeCase, String.toList_ofList, hcs, snakeChars]
    by_cases hupper : Text.isUpperCase d
    · have hlower := isLower_toLower_of_isUpperCase hpart hupper
      have hne : d.toLower ≠ '_' := by
        intro heq
        rw [heq] at hlower
        exact absurd hlower (by decide)
      refine ⟨d.toLower, snakeChars false cs, by simp [hupper], ?_, ?_⟩
      · simp [IdlCompiler.Name.isStart, Char.isAlpha, hlower]
      · rw [← hname _ hcs]
        have hne' : d ≠ '_' := mt (toLower_of_isPart hpart).1.2 hne
        simp [hne, hne']
    · refine ⟨d, snakeChars (d.isLower || d.isDigit) cs, by simp [hupper], hstart, ?_⟩
      rw [← hname _ hcs]
      simp [hnil]

theorem isIdentifier_snakeCase (h : IdlCompiler.Name.isIdentifier name) :
    IdlCompiler.Name.isIdentifier (snakeCase name) := by
  obtain ⟨c, cs, hcs, hstart, -⟩ := exists_snakeCase_eq h
  refine (IdlCompiler.Name.isIdentifierChars_iff _).2 ⟨⟨c, by simp [hcs], hstart⟩, ?_⟩
  rw [snakeCase, String.toList_ofList]
  exact isPart_of_mem_snakeChars (forall_isPart_of_isIdentifier h)

/-- A field, a parameter or a method has a legal identifier, unless its name is a single
underscore. -/
theorem isLegal_fieldIdent_iff (h : IdlCompiler.Name.isIdentifier name) :
    IsLegal (fieldIdent name) ↔ name ≠ "_" := by
  obtain ⟨c, cs, hcs, hstart, hunder⟩ := exists_snakeCase_eq h
  have hparts : ∀ d ∈ (snakeCase name).toList, d.isAlphanum ∨ d = '_' := by
    intro d hd
    rw [snakeCase, String.toList_ofList] at hd
    have hpart := isPart_of_mem_snakeChars (forall_isPart_of_isIdentifier h) d hd
    simpa [IdlCompiler.Name.isPart] using hpart
  have hsnake : snakeCase name = "_" ↔ name = "_" := by
    rw [← hunder, ← hcs, ← String.toList_inj]
    rfl
  rw [fieldIdent]
  by_cases hpath : snakeCase name ∈ pathWords
  · -- an underscore behind the word makes it a plain name
    rw [if_pos (by simpa using hpath)]
    have hne : name ≠ "_" := by
      intro heq
      rw [hsnake.2 heq] at hpath
      exact absurd hpath (by decide)
    refine iff_of_true (.inl ⟨?_, ?_, ?_, ?_⟩) hne
    · exact ⟨c, by simp [hcs], by simp [not_isDigit_of_isStart hstart]⟩
    · intro d hd
      rw [String.toList_append, List.mem_append] at hd
      exact hd.elim (hparts d) fun hd => .inr (by simpa using hd)
    · have hwords : ∀ word ∈ pathWords, word ++ "_" ≠ "_" := by decide
      exact hwords _ hpath
    · have hwords : ∀ word ∈ pathWords, word ++ "_" ∉ languageWords := by decide +kernel
      exact hwords _ hpath
  rw [if_neg (by simpa using hpath)]
  by_cases hkeyword : snakeCase name ∈ keywords
  · -- the word is written in its raw form
    rw [if_pos (by simpa using hkeyword)]
    have hne : name ≠ "_" := by
      intro heq
      rw [hsnake.2 heq] at hkeyword
      exact absurd hkeyword (by decide)
    exact iff_of_true (.inr ⟨_, mem_languageWords_iff.2 (.inl hkeyword), hpath, rfl⟩) hne
  rw [if_neg (by simpa using hkeyword), ← not_iff_not, not_ne_iff, ← hsnake]
  constructor
  · intro hillegal
    by_contra hne
    refine hillegal (.inl ⟨⟨c, by simp [hcs], by simp [not_isDigit_of_isStart hstart]⟩, hparts, hne,
      fun hword => ?_⟩)
    exact (mem_languageWords_iff.1 hword).elim hkeyword hpath
  · rintro hsingle (hplain | ⟨word, -, -, hraw⟩)
    · exact hplain.ne_underscore hsingle
    · rw [hsingle] at hraw
      simpa using congrArg (fun s : String => s.toList.head?) hraw

end IdlCompiler.Target.Name

namespace IdlCompiler

open Target.Name

/-! ## The enums of a slot -/

theorem isCapitalized_of_mem_enumEndings {s : Schema} {e : String} (he : e ∈ s.enumEndings) :
    IsCapitalized e ∧ ∀ c ∈ e.toList.head?, c.isDigit = false := by
  have hword : ∀ word, isCapitalWord word → ∀ {e : String},
      (IsCapitalized e ∧ ∀ c ∈ e.toList.head?, c.isDigit = false) →
        IsCapitalized (word ++ e) ∧ ∀ c ∈ (word ++ e).toList.head?, c.isDigit = false := by
    intro word hmem e he
    obtain ⟨hown, c, hc, hdigit⟩ := isCapitalized_of_isCapitalWord hmem
    refine ⟨hown.append he.1, fun d hd => ?_⟩
    rw [String.toList_append, List.head?_append, Option.mem_def.1 hc] at hd
    obtain rfl : c = d := by simpa using hd
    exact hdigit
  induction s using Schema.induction generalizing e with
  | primitive | named => simp [Schema.enumEndings] at he
  | array items ih =>
    rw [Schema.enumEndings] at he
    obtain ⟨d, hd, rfl⟩ := List.mem_map.1 he
    exact hword "Item" (by decide) (ih hd)
  | map values ih =>
    rw [Schema.enumEndings] at he
    obtain ⟨d, hd, rfl⟩ := List.mem_map.1 he
    exact hword "Value" (by decide) (ih hd)
  | union branches ih =>
    cases hinner : (Schema.union branches).optionalInner? with
    | some inner =>
      rw [Schema.enumEndings_of_optionalInner? hinner] at he
      exact ih inner (Schema.mem_of_optionalInner? hinner) he
    | none =>
      rw [Schema.enumEndings_of_optionalInner?_eq_none hinner, List.mem_append] at he
      obtain he | he := he
      · obtain ⟨b, hb, he⟩ := List.mem_flatMap.1 he
        obtain ⟨d, hd, rfl⟩ := List.mem_map.1 he
        cases b with
        | array => exact hword "Array" (by decide) (ih _ hb hd)
        | map => exact hword "Map" (by decide) (ih _ hb hd)
        | union => exact hword "Union" (by decide) (ih _ hb hd)
        | primitive | named => simp [Schema.enumEndings] at hd
      · obtain rfl := List.mem_singleton.1 he
        exact ⟨⟨by simp, by simp⟩, by simp⟩

/-- The hint of a slot makes legal names for the enums of the slot. -/
structure Slot.SpellsLegally (s : Slot) : Prop where
  /-- No digit stands in front. -/
  head : s.schema.enumEndings ≠ [] → ∀ c ∈ s.hint.toList.head?, c.isDigit = false
  /-- If the schema is an enum itself, the hint alone is its name. -/
  own : s.schema.NeedsEnum → s.hint ≠ "" ∧ s.hint ≠ "Self"

variable {p : Protocol}

theorem Slot.isLegal_enumNames_iff {s : Slot} (h : p.AllowsSchema s.schema)
    (hhint : IsCapitalized s.hint) : (∀ n ∈ s.enumNames, IsLegal n) ↔ s.SpellsLegally := by
  have hlegal : ∀ e ∈ s.schema.enumEndings, (IsLegal (s.hint ++ e) ↔
      (∃ c ∈ (s.hint ++ e).toList.head?, c.isDigit = false) ∧ s.hint ++ e ≠ "Self") :=
    fun e he => isLegal_iff_of_isCapitalized
      (hhint.append (isCapitalized_of_mem_enumEndings he).1)
  rw [Slot.enumNames, List.forall_mem_map]
  constructor
  · intro hall
    refine ⟨fun hne c hc => ?_, fun hown => ?_⟩
    · obtain ⟨e, he⟩ := List.exists_mem_of_ne_nil _ hne
      obtain ⟨⟨d, hd, hdigit⟩, -⟩ := (hlegal e he).1 (hall e he)
      rw [String.toList_append, List.head?_append, Option.mem_def.1 hc] at hd
      obtain rfl : c = d := by simpa using hd
      exact hdigit
    · have hempty := (Protocol.empty_mem_enumEndings_iff h).2 hown
      obtain ⟨⟨c, hc, -⟩, hself⟩ := (hlegal "" hempty).1 (hall "" hempty)
      rw [String.append_empty] at hc hself
      refine ⟨?_, hself⟩
      intro hhint
      simp [hhint] at hc
  · rintro ⟨hhead, hown⟩ e he
    refine (hlegal e he).2 ⟨?_, ?_⟩
    · rw [String.toList_append, List.head?_append]
      cases hc : s.hint.toList.head? with
      | some c => exact ⟨c, by simp, hhead (List.ne_nil_of_mem he) c hc⟩
      | none =>
        -- the ending has characters of its own, as the hint has none
        obtain hempty : s.hint = "" := by simpa using hc
        cases hd : e.toList.head? with
        | some d => exact ⟨d, by simp, (isCapitalized_of_mem_enumEndings he).2 d hd⟩
        | none =>
          obtain rfl : e = "" := by simpa using hd
          exact absurd hempty (hown ((Protocol.empty_mem_enumEndings_iff h).1 he)).1
    · obtain ⟨rfl, -⟩ | hinside := Protocol.endsInside_of_mem_enumEndings h he
      · rw [String.append_empty]
        exact (hown ((Protocol.empty_mem_enumEndings_iff h).1 he)).2
      · intro hself
        have hlast := (hinside.append s.hint).getLast?
        simp [hself] at hlast

theorem Slot.spellsLegally_of_isLegal {s : Slot} (hhint : IsCapitalized s.hint)
    (h : IsLegal s.hint) : s.SpellsLegally := by
  obtain ⟨⟨c, hc, hdigit⟩, hself⟩ := (isLegal_iff_of_isCapitalized hhint).1 h
  refine ⟨fun _ d hd => ?_, fun _ => ⟨?_, hself⟩⟩
  · obtain rfl : c = d := Option.mem_unique hc hd
    exact hdigit
  · intro hempty
    simp [hempty] at hc

/-! ## The names in a module -/

namespace Target

/-- The names of an enum of symbols: its own and those of its variants. -/
def EnumDef.names (e : EnumDef) : List String := e.name :: e.variants

/-- The names of a definition with data: its own and the identifiers of its members. -/
def DataDef.names : DataDef → List String
  | fixed d => [d.name]
  | struct d => d.name :: d.members.map MemberDef.ident

/-- The names of the enum of a union: its own and those of its variants. -/
def UnionDef.names (u : UnionDef) : List String := u.name :: u.variants.map Variant.name

/-- The names of a method: its own and the identifiers of its parameters. -/
def MethodDef.names (f : MethodDef) : List String := f.ident :: f.parameters.map MemberDef.ident

/-- The names in a service: the variants of its error type, and those of its methods and enums. -/
def Service.names (s : Service) : List String :=
  s.errors ++ s.methods.flatMap MethodDef.names ++ s.unions.flatMap UnionDef.names

/-- The names in a module. -/
def Module.names (m : Module) : List String :=
  m.enums.flatMap EnumDef.names ++ m.data.flatMap DataDef.names
    ++ m.unions.flatMap UnionDef.names ++ m.service.elim [] Service.names

/-- The names that are made up for a resolved protocol: those of the trait and the error type,
and those in its module. -/
def names (r : Resolved) : List String := traitName r :: errorName r :: (Module.ofResolved r).names

end Target

/-- The names of a type in generated code. -/
def NamedType.names (t : NamedType) : List String :=
  t.targetName :: match t.body with
    | .symbols symbols => symbols.map variantName
    | .record _ fields => fields.map fun f => fieldIdent f.name
    | .fixed _ => []

/-- The names of a message in generated code. -/
def Message.names (m : Message) : List String :=
  fieldIdent m.name :: m.request.map fun f => fieldIdent f.name

namespace Target

variable {p : Protocol} {r : Resolved}

theorem names_of_type (t : NamedType) :
    (enumOf? (.ofType p t)).elim [] EnumDef.names ++
      (dataOf? r (.ofType p t)).elim [] (fun d => d.1.names) = t.names := by
  cases hbody : t.body <;>
    simp [enumOf?, dataOf?, ResolvedType.ofType, ResolvedBody.ofBody, hbody, NamedType.names,
      EnumDef.names, EnumDef.variants, DataDef.names, NamedType.targetName, memberOf,
      ResolvedField.ofField, Function.comp_def]

theorem mem_flatMap_filterMap_iff {α β γ : Type} {f : α → Option β} {g : β → List γ}
    {as : List α} {c : γ} :
    c ∈ (as.filterMap f).flatMap g ↔ ∃ a ∈ as, c ∈ (f a).elim [] g := by
  simp only [List.mem_flatMap, List.mem_filterMap]
  constructor
  · rintro ⟨b, ⟨a, ha, hb⟩, hc⟩
    exact ⟨a, ha, by simpa [hb] using hc⟩
  · rintro ⟨a, ha, hc⟩
    cases hb : f a with
    | none => simp [hb] at hc
    | some b => exact ⟨b, ⟨a, ha, hb⟩, by simpa [hb] using hc⟩

/-- The names of the definitions of types are those of the types. -/
theorem mem_names_of_types {n : String} :
    (n ∈ (Module.ofResolved (.ofProtocol p)).enums.flatMap EnumDef.names ∨
      n ∈ (Module.ofResolved (.ofProtocol p)).data.flatMap DataDef.names) ↔
        ∃ t ∈ p.types, n ∈ t.names := by
  have htypes : (Resolved.ofProtocol p).types = p.types.map (.ofType p) := rfl
  simp only [Module.ofResolved, htypes, List.flatMap_map, mem_flatMap_filterMap_iff]
  rw [← exists_or]
  simp only [← and_or_left, ← List.mem_append]
  constructor
  · rintro ⟨_, hmem, hn⟩
    obtain ⟨t, ht, rfl⟩ := List.mem_map.1 hmem
    exact ⟨t, ht, names_of_type t ▸ hn⟩
  · rintro ⟨t, ht, hn⟩
    exact ⟨_, List.mem_map_of_mem ht, (names_of_type t).symm ▸ hn⟩

theorem isLegal_of_mem_words {word : String} (h : word ∈ ["Array", "Map", "Union"]) :
    IsLegal word := by
  have hcapital : isCapitalWord word ∧ word ≠ "Self" := by
    simp only [List.mem_cons, List.not_mem_nil, or_false] at h
    obtain rfl | rfl | rfl := h <;> decide
  obtain ⟨hword, hletter⟩ := isCapitalized_of_isCapitalWord hcapital.1
  exact (isLegal_iff_of_isCapitalized hword).2 ⟨hletter, hcapital.2⟩

/-- A variant of an enum has the name of a type, or a name that is fixed. -/
theorem exists_targetName_or_of_isBacked {emitted : List UnionDef} {u : UnionDef}
    (hu : u.IsBacked r emitted) {v : Variant} (hv : v ∈ u.variants) :
    (∃ t ∈ r.types, v.name = t.targetName) ∨ IsLegal v.name := by
  obtain ⟨branch, hknown, rfl, -⟩ := hu v hv
  rw [variantOf]
  cases branch with
  | named n =>
    obtain ⟨name, hname⟩ := Option.isSome_iff_exists.1 (hknown n (by simp [Schema.references]))
    obtain ⟨t, ht, rfl⟩ := Option.map_eq_some_iff.1 hname
    exact .inl ⟨t, Resolved.getType?_mem ht, by simp [branchName, referenceName, hname]⟩
  | primitive type =>
    have hident : IdlCompiler.Name.isIdentifier type.name := by cases type <;> decide
    refine .inr ((isLegal_pascalCase_iff hident).2 ?_)
    cases type <;> decide
  | array | map | union => exact .inr (isLegal_of_mem_words (by simp [branchName]))

/-- The names of enums are legal if the names of types and those of the enums themselves are. -/
theorem isLegal_of_mem_unions {unions : List UnionDef} (hu : ∀ u ∈ unions, u.IsBacked r unions)
    (htypes : ∀ t ∈ r.types, IsLegal t.targetName)
    (hnames : ∀ n ∈ unions.map UnionDef.name, IsLegal n) :
    ∀ n ∈ unions.flatMap UnionDef.names, IsLegal n := by
  intro n hn
  obtain ⟨u, hmem, hn⟩ := List.mem_flatMap.1 hn
  obtain rfl | hn := List.mem_cons.1 hn
  · exact hnames _ (List.mem_map_of_mem hmem)
  · obtain ⟨v, hv, rfl⟩ := List.mem_map.1 hn
    obtain ⟨t, ht, hname⟩ | hlegal := exists_targetName_or_of_isBacked (hu u hmem) hv
    · exact hname ▸ htypes t ht
    · exact hlegal

theorem names_methodOf (m : Message) : (methodOf r (.ofMessage p m)).1.names = m.names := by
  cases hway : m.oneWay <;>
    simp [methodOf, ResolvedMessage.ofMessage, hway, MethodDef.names, Message.names,
      ResolvedField.ofField, Function.comp_def]

/-- What the service of a protocol is made of, if there is one. -/
theorem service_eq {s : Service} (hs : s ∈ (Module.ofResolved (.ofProtocol p)).service) :
    s.methods.flatMap MethodDef.names = p.messages.flatMap Message.names ∧
      s.unions.map UnionDef.name = (p.messages.flatMap Message.slots).flatMap Slot.enumNames := by
  obtain ⟨hmethods, hunions, -⟩ := eq_of_mem_serviceOf? hs
  have hmessages : (Resolved.ofProtocol p).messages = p.messages.map (.ofMessage p) := rfl
  refine ⟨?_, hunions ▸ map_name_flatMap_methodOf p⟩
  simp [hmethods, hmessages, List.flatMap_map, names_methodOf]

theorem exists_service (h : p.messages ≠ []) :
    ∃ s, s ∈ (Module.ofResolved (.ofProtocol p)).service := by
  have hmessages : (Resolved.ofProtocol p).messages = p.messages.map (.ofMessage p) := rfl
  have hne : ¬ (Resolved.ofProtocol p).messages.isEmpty := by simpa [hmessages] using h
  simp only [Module.ofResolved, serviceOf?, if_neg hne]
  exact ⟨_, rfl⟩

end Target

/-! ## When all names are legal -/

namespace Protocol

/-- The names in a protocol make legal names in generated code. -/
structure SpellsLegally (p : Protocol) : Prop where
  /-- The name of the protocol has no digit behind its first underscores. -/
  protocol : ∀ c ∈ first? p.name, c.isDigit = false
  /-- Types have a letter behind their first underscores, and do not become a word of the
  language. -/
  types : ∀ t ∈ p.types, StartsWithLetter t.name ∧ t.targetName ≠ "Self"
  /-- So do symbols. -/
  symbols : ∀ t ∈ p.types, ∀ symbols, t.body = .symbols symbols → ∀ s ∈ symbols,
    StartsWithLetter s ∧ variantName s ≠ "Self"
  /-- Fields and parameters are more than an underscore. -/
  members : ∀ fields ∈ p.fieldLists, ∀ f ∈ fields, f.name ≠ "_"
  /-- So are messages. -/
  messages : ∀ m ∈ p.messages, m.name ≠ "_"
  /-- The names of a message and its parameters make legal names for enums. -/
  slots : ∀ m ∈ p.messages, ∀ s ∈ m.slots, s.SpellsLegally

variable {p : Protocol}

theorem WellFormed.isCapitalized_hint (hp : p.WellFormed) {s : Slot} (hs : s ∈ p.slots) :
    IsCapitalized s.hint := by
  simp only [slots, List.mem_append, List.mem_flatMap] at hs
  obtain ⟨t, ht, hs⟩ | ⟨m, hm, hs⟩ := hs
  · have hname := isCapitalized_pascalCase (hp.types t ht).isIdentifier
    have hbody := (hp.types t ht).body
    cases hkind : t.body <;> rw [hkind] at hbody <;> simp only [NamedType.slots, hkind] at hs
    · obtain ⟨f, hf, rfl⟩ := List.mem_map.1 hs
      exact hname.append (isCapitalized_pascalCase (hbody.isIdentifier f hf))
    · cases hs
    · cases hs
  · have hname := isCapitalized_pascalCase (hp.messages m hm).isIdentifier
    obtain hs | hs := List.mem_append.1 hs
    · obtain ⟨f, hf, rfl⟩ := List.mem_map.1 hs
      exact hname.append (isCapitalized_pascalCase ((hp.messages m hm).request.isIdentifier f hf))
    · split at hs
      · cases hs
      · obtain rfl := List.mem_singleton.1 hs
        exact hname.append (isCapitalized_of_isCapitalWord (by decide)).1

/-- A legal name for a type makes legal names for the enums of its fields. -/
theorem WellFormed.spellsLegally_of_mem_slots (hp : p.WellFormed) {t : NamedType}
    (ht : t ∈ p.types) (hlegal : IsLegal t.targetName) {s : Slot} (hs : s ∈ t.slots) :
    s.SpellsLegally := by
  have hhint := hp.isCapitalized_hint (s := s)
    (List.mem_append_left _ (List.mem_flatMap.2 ⟨t, ht, hs⟩))
  refine Slot.spellsLegally_of_isLegal hhint ?_
  have hname : IsCapitalized t.targetName := isCapitalized_pascalCase (hp.types t ht).isIdentifier
  have hbody := (hp.types t ht).body
  cases hkind : t.body <;> rw [hkind] at hbody <;> simp only [NamedType.slots, hkind] at hs
  · obtain ⟨f, hf, rfl⟩ := List.mem_map.1 hs
    exact hname.isLegal_append (isCapitalized_pascalCase (hbody.isIdentifier f hf)) hlegal
  · cases hs
  · cases hs

/-- The trait and the error type are legal unless a digit stands in front. -/
theorem isLegal_pascalCase_append_iff {name word : String}
    (hname : IdlCompiler.Name.isIdentifier name) (hword : word ∈ ["Protocol", "Error"]) :
    IsLegal (pascalCase name ++ word) ↔ ∀ c ∈ first? name, c.isDigit = false := by
  have hown : isCapitalWord word ∧ word.toList.getLast? ≠ none ∧
      word.toList.getLast? ≠ "Self".toList.getLast? := by
    simp only [List.mem_cons, List.not_mem_nil, or_false] at hword
    obtain rfl | rfl := hword <;> decide
  obtain ⟨hcapital, hlast, hother⟩ := hown
  obtain ⟨hcapital, d, hd, hdigit⟩ := isCapitalized_of_isCapitalWord hcapital
  have hself : pascalCase name ++ word ≠ "Self" := by
    intro heq
    have hends := congrArg (fun s : String => s.toList.getLast?) heq
    simp only [String.toList_append, List.getLast?_append] at hends
    obtain ⟨c, hc⟩ := Option.ne_none_iff_exists'.1 hlast
    rw [hc, Option.some_or] at hends
    exact hother (hc.trans hends)
  rw [isLegal_iff_of_isCapitalized ((isCapitalized_pascalCase hname).append hcapital),
    and_iff_left hself, String.toList_append, List.head?_append, head?_pascalCase hname]
  cases hc : first? name with
  | none => simpa using ⟨d, hd, hdigit⟩
  | some c => simp [(toUpper_of_isPart (isPart_of_mem_first? hname hc)).2.2.1]

/-- When the names of a type are legal. -/
theorem WellFormed.isLegal_names_type_iff (hp : p.WellFormed) {t : NamedType} (ht : t ∈ p.types) :
    (∀ n ∈ t.names, IsLegal n) ↔
      (StartsWithLetter t.name ∧ t.targetName ≠ "Self") ∧
      (∀ symbols, t.body = .symbols symbols → ∀ s ∈ symbols,
        StartsWithLetter s ∧ variantName s ≠ "Self") ∧
      ∀ isError fields, t.body = .record isError fields → ∀ f ∈ fields, f.name ≠ "_" := by
  have hname : IsLegal t.targetName ↔ _ := isLegal_pascalCase_iff (hp.types t ht).isIdentifier
  have hbody := (hp.types t ht).body
  rw [NamedType.names, List.forall_mem_cons, hname]
  refine and_congr_right fun _ => ?_
  cases hkind : t.body <;> rw [hkind] at hbody
  · simp only [List.forall_mem_map, TypeBody.record.injEq, and_imp, reduceCtorEq,
      IsEmpty.forall_iff, implies_true, true_and]
    constructor
    · rintro h _ _ - rfl f hf
      exact (isLegal_fieldIdent_iff (hbody.isIdentifier f hf)).1 (h f hf)
    · intro h f hf
      exact (isLegal_fieldIdent_iff (hbody.isIdentifier f hf)).2 (h _ _ rfl rfl f hf)
  · simp only [List.forall_mem_map, TypeBody.symbols.injEq, forall_eq', reduceCtorEq,
      IsEmpty.forall_iff, implies_true, and_true]
    exact forall₂_congr fun s hs => isLegal_variantName_iff (hbody.1 s hs)
  · simp

/-- When the names of a message are legal. -/
theorem WellFormed.isLegal_names_message_iff (hp : p.WellFormed) {m : Message}
    (hm : m ∈ p.messages) :
    (∀ n ∈ m.names, IsLegal n) ↔ m.name ≠ "_" ∧ ∀ f ∈ m.request, f.name ≠ "_" := by
  have hallows := hp.messages m hm
  rw [Message.names, List.forall_mem_cons, isLegal_fieldIdent_iff hallows.isIdentifier,
    List.forall_mem_map]
  exact and_congr_right fun _ => forall₂_congr fun f hf =>
    isLegal_fieldIdent_iff (hallows.request.isIdentifier f hf)

end Protocol

namespace Target

variable {p : Protocol}

theorem isLegal_of_mem_unions_module (hp : p.WellFormed) (hindexed : p.IsIndexed)
    (htypes : ∀ t ∈ p.types, IsLegal t.targetName) :
    ∀ n ∈ (Module.ofResolved (.ofProtocol p)).unions.flatMap UnionDef.names, IsLegal n := by
  refine isLegal_of_mem_unions (isClosed_of_wellFormed hp hindexed).unions ?_ fun n hn => ?_
  · intro t ht
    obtain ⟨u, hu, rfl⟩ := List.mem_map.1 ht
    exact htypes u hu
  · rw [map_name_unions] at hn
    obtain ⟨s, hs, hn⟩ := List.mem_flatMap.1 hn
    have hmem : s ∈ p.slots := List.mem_append_left _ hs
    obtain ⟨t, ht, hs⟩ := List.mem_flatMap.1 hs
    have hlegal := hp.spellsLegally_of_mem_slots ht (htypes t ht) hs
    exact (s.isLegal_enumNames_iff (hp.allowsSchema_of_mem_slots hmem)
      (hp.isCapitalized_hint hmem)).2 hlegal n hn

/-- When the names in the service are legal, if those of the types are. -/
theorem isLegal_names_service_iff (hp : p.WellFormed) (hindexed : p.IsIndexed)
    (htypes : ∀ t ∈ p.types, IsLegal t.targetName) :
    (∀ s ∈ (Module.ofResolved (.ofProtocol p)).service, ∀ n ∈ s.names, IsLegal n) ↔
      ∀ m ∈ p.messages, (∀ n ∈ m.names, IsLegal n) ∧ ∀ s ∈ m.slots, s.SpellsLegally := by
  have hclosed := isClosed_of_wellFormed hp hindexed
  have htargets : ∀ t ∈ (Resolved.ofProtocol p).types, IsLegal t.targetName := by
    intro t ht
    obtain ⟨u, hu, rfl⟩ := List.mem_map.1 ht
    exact htypes u hu
  have hslot : ∀ m ∈ p.messages, ∀ s ∈ m.slots,
      ((∀ n ∈ s.enumNames, IsLegal n) ↔ s.SpellsLegally) := by
    intro m hm s hs
    have hmem : s ∈ p.slots := List.mem_append_right _ (List.mem_flatMap.2 ⟨m, hm, hs⟩)
    exact s.isLegal_enumNames_iff (hp.allowsSchema_of_mem_slots hmem) (hp.isCapitalized_hint hmem)
  constructor
  · intro hall m hm
    obtain ⟨s, hs⟩ := exists_service (List.ne_nil_of_mem hm)
    obtain ⟨hmethods, hunions⟩ := service_eq hs
    have hlegal := hall s hs
    simp only [Service.names, List.mem_append, or_imp, forall_and] at hlegal
    obtain ⟨⟨-, hmethod⟩, henums⟩ := hlegal
    refine ⟨fun n hn => hmethod n ?_, fun slot hslots => (hslot m hm slot hslots).1 fun n hn => ?_⟩
    · rw [hmethods]
      exact List.mem_flatMap.2 ⟨m, hm, hn⟩
    · -- the name is that of one of the enums of the service
      have hname : n ∈ s.unions.map UnionDef.name := by
        rw [hunions]
        exact List.mem_flatMap.2 ⟨slot, List.mem_flatMap.2 ⟨m, hm, hslots⟩, hn⟩
      obtain ⟨u, hu, rfl⟩ := List.mem_map.1 hname
      exact henums _ (List.mem_flatMap.2 ⟨u, hu, List.mem_cons_self⟩)
  · intro hall s hs n hn
    obtain ⟨hmethods, hunions⟩ := service_eq hs
    have hservice := hclosed.service s hs
    simp only [Service.names, List.mem_append] at hn
    obtain (hn | hn) | hn := hn
    · obtain ⟨t, ht, -, rfl⟩ := hservice.errors n hn
      exact htargets t ht
    · rw [hmethods] at hn
      obtain ⟨m, hm, hn⟩ := List.mem_flatMap.1 hn
      exact (hall m hm).1 n hn
    · refine isLegal_of_mem_unions hservice.unions htargets (fun n hn => ?_) n hn
      rw [hunions] at hn
      obtain ⟨slot, hslots, hn⟩ := List.mem_flatMap.1 hn
      obtain ⟨m, hm, hmem⟩ := List.mem_flatMap.1 hslots
      exact (hslot m hm slot hmem).2 ((hall m hm).2 slot hmem) n hn

/-- The names that are made up for a protocol, part by part. -/
theorem forall_mem_names_iff {P : String → Prop} : (∀ n ∈ names (.ofProtocol p), P n) ↔
    (P (traitName (.ofProtocol p)) ∧ P (errorName (.ofProtocol p))) ∧
      (∀ t ∈ p.types, ∀ n ∈ t.names, P n) ∧
      (∀ n ∈ (Module.ofResolved (.ofProtocol p)).unions.flatMap UnionDef.names, P n) ∧
      ∀ s ∈ (Module.ofResolved (.ofProtocol p)).service, ∀ n ∈ s.names, P n := by
  have htypes : (∀ n, (n ∈ (Module.ofResolved (.ofProtocol p)).enums.flatMap EnumDef.names ∨
      n ∈ (Module.ofResolved (.ofProtocol p)).data.flatMap DataDef.names) → P n) ↔
        ∀ t ∈ p.types, ∀ n ∈ t.names, P n := by
    simp only [mem_names_of_types]
    exact ⟨fun h t ht n hn => h n ⟨t, ht, hn⟩, fun h n ⟨t, ht, hn⟩ => h t ht n hn⟩
  have hservice : (∀ n ∈ (Module.ofResolved (.ofProtocol p)).service.elim [] Service.names, P n) ↔
      ∀ s ∈ (Module.ofResolved (.ofProtocol p)).service, ∀ n ∈ s.names, P n := by
    cases (Module.ofResolved (.ofProtocol p)).service <;> simp
  rw [← htypes, ← hservice, names, List.forall_mem_cons, List.forall_mem_cons, Module.names]
  simp only [List.forall_mem_append, or_imp, forall_and, and_assoc]

/-- **When all names are legal.**  Every name in the code that is generated for a well-formed
protocol is legal exactly if the names in the protocol spell legally.  Words of the language are
never in the way of fields, parameters and methods, and of the enums only those of a message can
fail if the names of the types do not. -/
theorem isLegal_names_iff (hvalid : p.validate = .ok ()) (hindexed : p.IsIndexed) :
    (∀ n ∈ names (.ofProtocol p), IsLegal n) ↔ p.SpellsLegally := by
  have hp := Protocol.validate_eq_ok_iff.1 hvalid
  have htrait : IsLegal (traitName (.ofProtocol p)) ↔ _ :=
    Protocol.isLegal_pascalCase_append_iff hp.isIdentifier (List.mem_cons_self)
  have herror : IsLegal (errorName (.ofProtocol p)) ↔ _ :=
    Protocol.isLegal_pascalCase_append_iff hp.isIdentifier (by simp)
  rw [forall_mem_names_iff, htrait, herror, and_self]
  constructor
  · rintro ⟨hname, htypes, -, hservice⟩
    have htargets : ∀ t ∈ p.types, IsLegal t.targetName :=
      fun t ht => htypes t ht _ List.mem_cons_self
    have hparts := fun t ht => (hp.isLegal_names_type_iff ht).1 (htypes t ht)
    have hmessages := (isLegal_names_service_iff hp hindexed htargets).1 hservice
    have hwords := fun m hm => (hp.isLegal_names_message_iff hm).1 (hmessages m hm).1
    refine ⟨hname, fun t ht => (hparts t ht).1, fun t ht => (hparts t ht).2.1,
      fun fields hfields => ?_, fun m hm => (hwords m hm).1, fun m hm => (hmessages m hm).2⟩
    obtain ⟨t, ht, isError, hbody⟩ | ⟨m, hm, rfl⟩ := Protocol.mem_fieldLists.1 hfields
    · exact (hparts t ht).2.2 isError fields hbody
    · exact (hwords m hm).2
  · rintro ⟨hname, htypes, hsymbols, hmembers, hmessages, hslots⟩
    have hparts : ∀ t ∈ p.types, ∀ n ∈ t.names, IsLegal n := by
      intro t ht
      refine (hp.isLegal_names_type_iff ht).2 ⟨htypes t ht, hsymbols t ht, ?_⟩
      intro isError fields hbody
      exact hmembers fields (Protocol.mem_fieldLists.2 (.inl ⟨t, ht, isError, hbody⟩))
    have htargets : ∀ t ∈ p.types, IsLegal t.targetName :=
      fun t ht => hparts t ht _ List.mem_cons_self
    refine ⟨hname, hparts, isLegal_of_mem_unions_module hp hindexed htargets, ?_⟩
    refine (isLegal_names_service_iff hp hindexed htargets).2 fun m hm => ⟨?_, hslots m hm⟩
    exact (hp.isLegal_names_message_iff hm).2
      ⟨hmessages m hm, hmembers _ (Protocol.mem_fieldLists.2 (.inr ⟨m, hm, rfl⟩))⟩

/-- An enum with a symbol that is spelled like a word of the language. -/
def selfEnum : Protocol :=
  (Protocol.empty "P" none).addTypes [{ name := "E", body := .symbols ["SELF"] }]

/-- The variant of the symbol is the word itself, where the same word as a field is escaped and
every name of the other protocol is legal. -/
theorem selfEnum_not_isLegal :
    selfEnum.validate = .ok () ∧ selfEnum.IsIndexed ∧
      ¬ (∀ n ∈ names (.ofProtocol selfEnum), IsLegal n) ∧ IsLegal (fieldIdent "SELF") ∧
      shop.validate = .ok () ∧ shop.IsIndexed ∧ ∀ n ∈ names (.ofProtocol shop), IsLegal n := by
  refine ⟨rfl, rfl, fun h => ?_, (isLegal_fieldIdent_iff (by decide)).2 (by decide), rfl, rfl,
    (isLegal_names_iff (p := shop) rfl rfl).2 ?_⟩
  · have hspells := (isLegal_names_iff (p := selfEnum) rfl rfl).1 h
    exact absurd rfl (hspells.symbols _ (List.mem_singleton_self _) _ rfl "SELF" (by simp)).2
  · have hhints : ∀ s ∈ shop.slots, isCapitalWord s.hint ∧ s.hint ≠ "Self" := by decide +kernel
    refine ⟨fun c hc => ?_, by decide +kernel, fun t ht symbols hbody => ?_, by decide +kernel,
      by decide +kernel, fun m hm s hs => ?_⟩
    · have hfirst : first? "Shop" = some 'S' := by decide
      obtain rfl : 'S' = c := Option.some.inj (hfirst.symm.trans hc)
      decide
    · -- no type of the shop is an enum
      have hkinds : ∀ t ∈ shop.types, t.isEnum = false := by decide
      have hkind := hkinds t ht
      simp [NamedType.isEnum, hbody] at hkind
    · have hmem : s ∈ shop.slots := List.mem_append_right _ (List.mem_flatMap.2 ⟨m, hm, hs⟩)
      obtain ⟨hword, hself⟩ := hhints s hmem
      obtain ⟨hcapital, hletter⟩ := isCapitalized_of_isCapitalWord hword
      exact s.spellsLegally_of_isLegal hcapital
        ((isLegal_iff_of_isCapitalized hcapital).2 ⟨hletter, hself⟩)

end Target

end IdlCompiler
