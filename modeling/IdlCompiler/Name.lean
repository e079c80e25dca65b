/-
# Identifiers and dotted names

An identifier starts with a letter of ASCII or an underscore and goes on with letters,
digits and underscores of ASCII.  A dotted name is a sequence of identifiers with dots
between them.
-/
import IdlCompiler.Text.Blank

namespace IdlCompiler.Name

/-- Tells whether a character may start an identifier. -/
def isStart (c : Char) : Bool := c.isAlpha || c = '_'

/-- Tells whether a character may go on in an identifier. -/
def isPart (c : Char) : Bool := c.isAlphanum || c = '_'

/-- Tells whether the characters form an identifier. -/
def isIdentifierChars : List Char → Bool
  | [] => false
  | c :: cs => isStart c && cs.all isPart

/-- Tells whether a text is an identifier. -/
def isIdentifier (name : String) : Bool := isIdentifierChars name.toList

/-- The parts of a text between its dots. -/
def segments (name : String) : List String :=
  (Text.splitOn '.' name.toList).map String.ofList

/-- Tells whether a text is a dotted sequence of identifiers. -/
def isDotted (name : String) : Bool := (segments name).all isIdentifier

/-- Tells whether a text contains a dot. -/
def hasDot (name : String) : Bool := name.toList.contains '.'

/-- A name inside a namespace. -/
def qualify (space name : String) : String := space ++ "." ++ name

/-! ## Small laws -/

theorem isPart_of_isStart {c : Char} (h : isStart c) : isPart c := by
  simp only [isStart, isPart, Bool.or_eq_true, decide_eq_true_eq, Char.isAlphanum] at *
  exact h.imp Or.inl id

/-- What holds of the parts of identifiers among the first 128 characters holds of all. -/
theorem forall_isPart {P : Char → Prop}
    (h : ∀ n < 128, isPart (.ofNat n) → P (.ofNat n)) {c : Char}
    (hc : isPart c) : P c := by
  have hlt : c.toNat < 128 := by
    unfold isPart Char.isAlphanum Char.isAlpha Char.isUpper Char.isLower Char.isDigit at hc
    simp only [Bool.or_eq_true, Bool.and_eq_true, decide_eq_true_eq, ge_iff_le,
      UInt32.le_iff_toNat_le] at hc
    rcases hc with ((h | h) | h) | rfl
    · exact Nat.lt_of_le_of_lt h.2 (by decide)
    · exact Nat.lt_of_le_of_lt h.2 (by decide)
    · exact Nat.lt_of_le_of_lt h.2 (by decide)
    · decide
  have hown := h c.toNat hlt
  rw [Char.ofNat_toNat] at hown
  exact hown hc

theorem isPart_of_isDigit {c : Char} (h : c.isDigit) : isPart c := by
  simp [isPart, Char.isAlphanum, h]

theorem not_isDigit_of_isStart {c : Char} (h : isStart c) : c.isDigit = false :=
  forall_isPart (P := fun c => isStart c → c.isDigit = false) (by decide +kernel)
    (isPart_of_isStart h) h

theorem isIdentifierChars_iff (cs : List Char) :
    isIdentifierChars cs ↔ (∃ c ∈ cs.head?, isStart c) ∧ ∀ c ∈ cs, isPart c := by
  cases cs with
  | nil => simp [isIdentifierChars]
  | cons c cs =>
    simp only [isIdentifierChars, Bool.and_eq_true, List.all_eq_true, List.head?_cons,
      Option.mem_some_iff, exists_eq_left', List.mem_cons, forall_eq_or_imp]
    exact ⟨fun ⟨h, t⟩ => ⟨h, isPart_of_isStart h, t⟩, fun ⟨h, _, t⟩ => ⟨h, t⟩⟩

end IdlCompiler.Name
