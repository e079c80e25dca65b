/-
# Numbers in front of other text

A number is read as far as its characters go, so reading it does not depend on the text
behind, as long as this text does not go on with the number, `Json.frames_readNumber`.  Each
step of reading a number has this property, `Json.Frames`, which is put together from those
of the steps that it uses: a step that looks at one character has it if it has it behind
every character, and a choice between two steps has it if both have it.
-/
import IdlCompiler.Json.Reader

namespace IdlCompiler.Json

/-- The text does not go on with a number: it starts with no digit, point or exponent. -/
def EndsNumber (rest : List Char) : Prop :=
  ∀ c ∈ rest.head?, ¬ c.isDigit ∧ c ≠ '.' ∧ c ≠ 'e' ∧ c ≠ 'E'

/-- The text of a number is read as the number. -/
def Number.ReadsBack (n : Number) : Prop := readNumber n.text = .ok (n, [])

/-- A step that succeeds does the same in front of more text, which it leaves. -/
def Frames {α : Type} (step : Step α) : Prop :=
  ∀ cs a left rest, EndsNumber rest → step cs = .ok (a, left) →
    step (cs ++ rest) = .ok (a, left ++ rest)

/-- A scan takes the same characters in front of more text, which it leaves. -/
def FramesScan {β : Type} (scan : List Char → β × List Char) : Prop :=
  ∀ cs rest, EndsNumber rest → scan (cs ++ rest) = ((scan cs).1, (scan cs).2 ++ rest)

variable {cs left rest : List Char} {positive : Bool} {significand : Nat} {exponent : Int}

theorem endsNumber_nil : EndsNumber [] := nofun

theorem endsNumber_cons {c : Char} (h : ¬ c.isDigit ∧ c ≠ '.' ∧ c ≠ 'e' ∧ c ≠ 'E') :
    EndsNumber (c :: cs) := by
  intro d hd
  obtain rfl : c = d := by simpa using hd
  exact h

/-! ## Putting steps together -/

namespace Frames

variable {α β : Type} {step other : Step α}

theorem error {stop : List Char → Stop} : Frames (α := α) fun cs => .error (stop cs) := nofun

theorem ok {a : α} : Frames fun cs => .ok (a, cs) := by
  intro cs b left rest _ h
  obtain ⟨rfl, rfl⟩ := Prod.mk.inj (Except.ok.inj h)
  rfl

theorem ite {p : Prop} [Decidable p] (h : Frames step) (h' : Frames other) :
    Frames fun cs => if p then step cs else other cs := by
  by_cases hp : p
  · simpa only [hp, if_true] using h
  · simpa only [hp, if_false] using h'

/-- A step that still takes the character that has been looked at. -/
theorem cons (h : Frames step) (c : Char) : Frames fun cs => step (c :: cs) :=
  fun cs => h (c :: cs)

/-- A step that looks at its first character, and where there is none does what it does in
front of a text that does not go on with a number. -/
theorem of_cons (h : Frames other) (hends : ∀ rest, EndsNumber rest → step rest = other rest)
    (hcons : ∀ c, Frames fun cs => step (c :: cs)) : Frames step := by
  intro cs a left rest hrest hstep
  cases cs with
  | nil =>
    rw [hends [] endsNumber_nil] at hstep
    rw [List.nil_append, hends rest hrest]
    exact h [] a left rest hrest hstep
  | cons c cs => exact hcons c cs a left rest hrest hstep

/-- A step that needs a first character. -/
theorem of_cons_of_error {stop : Stop} (hnil : step [] = .error stop)
    (hcons : ∀ c, Frames fun cs => step (c :: cs)) : Frames step := by
  intro cs a left rest hrest hstep
  cases cs with
  | nil =>
    rw [hnil] at hstep
    cases hstep
  | cons c cs => exact hcons c cs a left rest hrest hstep

/-- A step behind a scan, which may depend on what was scanned. -/
theorem scan {scan : List Char → β × List Char} {next : β → Step α} (h : FramesScan scan)
    (hnext : ∀ b, Frames (next b)) : Frames fun cs => next (scan cs).1 (scan cs).2 := by
  intro cs a left rest hrest hstep
  dsimp only
  rw [h cs rest hrest]
  exact hnext _ _ a left rest hrest hstep

end Frames

/-! ## Digits -/

theorem skipDigits_append (hrest : EndsNumber rest) :
    skipDigits (cs ++ rest) = skipDigits cs ++ rest := by
  induction cs with
  | nil =>
    cases rest with
    | nil => rfl
    | cons c rest => simp [skipDigits, (hrest c (by simp)).1]
  | cons c cs ih =>
    by_cases hc : c.isDigit
    · simpa [skipDigits, hc] using ih
    · simp [skipDigits, hc]

theorem framesScan_skipDigits : FramesScan fun cs => ((), skipDigits cs) := by
  intro cs rest hrest
  dsimp only
  rw [skipDigits_append hrest]

/-- The number of digits does not depend on the text behind them. -/
theorem framesScan_countDigits :
    FramesScan fun cs => (cs.length - (skipDigits cs).length, skipDigits cs) := by
  intro cs rest hrest
  have hlength : (cs ++ rest).length - (skipDigits cs ++ rest).length =
      cs.length - (skipDigits cs).length := by
    simp only [List.length_append]
    omega
  dsimp only
  rw [skipDigits_append hrest, hlength]

theorem framesScan_readExponentDigits {value : Nat} : FramesScan (readExponentDigits value) := by
  intro cs rest hrest
  induction cs generalizing value with
  | nil =>
    cases rest with
    | nil => rfl
    | cons c rest => simp [readExponentDigits, (hrest c (by simp)).1]
  | cons c cs ih =>
    rw [List.cons_append, readExponentDigits, readExponentDigits]
    split
    · split
      · rfl
      · exact ih
    · rfl

/-- The digits of a fraction, with the characters behind them set apart. -/
def scanFraction (value : Nat) (cs : List Char) : (Nat × Nat × Bool) × List Char :=
  let (significand, places, full, rest) := readFractionDigits value 0 cs
  ((significand, places, full), rest)

theorem readFractionDigits_append (hrest : EndsNumber rest) {value places : Nat} :
    readFractionDigits value places (cs ++ rest) =
      ((readFractionDigits value places cs).1, (readFractionDigits value places cs).2.1,
        (readFractionDigits value places cs).2.2.1,
        (readFractionDigits value places cs).2.2.2 ++ rest) := by
  induction cs generalizing value places with
  | nil =>
    cases rest with
    | nil => rfl
    | cons c rest => simp [readFractionDigits, (hrest c (by simp)).1]
  | cons c cs ih =>
    rw [List.cons_append, readFractionDigits, readFractionDigits]
    split
    · split
      · rfl
      · exact ih
    · rfl

theorem framesScan_scanFraction {value : Nat} : FramesScan (scanFraction value) := by
  intro cs rest hrest
  unfold scanFraction
  rw [readFractionDigits_append hrest]

/-! ## Exponents and fractions -/

theorem frames_realOfParts : Frames (realOfParts positive significand exponent) := by
  unfold realOfParts
  cases scale (exponent.natAbs / 308 + 1) significand.toUInt64.toFloat exponent with
  | none => exact .error
  | some x => exact .ok

/-- Goes on behind the digits of an exponent, where `up` tells whether it is not negative. -/
def readAfterExponent (positive : Bool) (significand : Nat) (before : Int) (up : Bool) :
    Option Nat → Step Number
  | some exponent =>
    realOfParts positive significand
      (if up then before + (exponent : Int) else before - (exponent : Int))
  | none => fun cs =>
    if significand ≠ 0 ∧ up then .error (.before .numberOutOfRange cs)
    else .ok (.real (if positive then 0.0 else -0.0), skipDigits cs)

/-- Reads an exponent after its sign. -/
def readExponentAfterSign (positive : Bool) (significand : Nat) (before : Int) (up : Bool) :
    Step Number
  | [] => .error (.before .endInValue [])
  | c :: rest =>
    if c.isDigit then
      match readExponentDigits (digitValue c) rest with
      | (some exponent, rest) =>
        realOfParts positive significand
          (if up then before + (exponent : Int) else before - (exponent : Int)) rest
      | (none, rest) =>
        if significand ≠ 0 ∧ up then .error (.before .numberOutOfRange rest)
        else .ok (.real (if positive then 0.0 else -0.0), skipDigits rest)
    else .error (.within .invalidNumber (c :: rest))

theorem readExponentAfterSign_cons {up : Bool} {c : Char} :
    readExponentAfterSign positive significand exponent up (c :: cs) =
      if c.isDigit then
        readAfterExponent positive significand exponent up (readExponentDigits (digitValue c) cs).1
          (readExponentDigits (digitValue c) cs).2
      else .error (.within .invalidNumber (c :: cs)) := by
  rw [readExponentAfterSign]
  rcases readExponentDigits (digitValue c) cs with ⟨digits, more⟩
  cases digits <;> rfl

theorem readExponent_cons {c : Char} : readExponent positive significand exponent (c :: cs) =
    if c = '+' then readExponentAfterSign positive significand exponent true cs
    else if c = '-' then readExponentAfterSign positive significand exponent false cs
    else readExponentAfterSign positive significand exponent true (c :: cs) := by
  split
  · subst c
    rfl
  split
  · subst c
    rfl
  · rename_i hplus hminus
    unfold readExponent
    split
    rename_i up more heq
    split at heq
    · simp_all
    · simp_all
    · obtain ⟨rfl, rfl⟩ := Prod.mk.inj heq
      rfl

theorem frames_readAfterExponent {up : Bool} {digits : Option Nat} :
    Frames (readAfterExponent positive significand exponent up digits) := by
  cases digits with
  | some digits => exact frames_realOfParts
  | none => exact .ite .error (.scan framesScan_skipDigits fun _ => .ok)

theorem frames_readExponentAfterSign {up : Bool} :
    Frames (readExponentAfterSign positive significand exponent up) := by
  refine .of_cons_of_error rfl fun c => ?_
  simp only [readExponentAfterSign_cons]
  exact .ite (.scan framesScan_readExponentDigits fun _ => frames_readAfterExponent) .error

theorem frames_readExponent : Frames (readExponent positive significand exponent) := by
  refine .of_cons_of_error rfl fun c => ?_
  simp only [readExponent_cons]
  exact .ite frames_readExponentAfterSign
    (.ite frames_readExponentAfterSign (frames_readExponentAfterSign.cons c))

/-- What follows the digits of a number: an exponent after its mark, or nothing. -/
theorem readAfterDigits_cons {c : Char} : readAfterDigits positive significand exponent (c :: cs) =
    if c = 'e' ∨ c = 'E' then readExponent positive significand exponent cs
    else realOfParts positive significand exponent (c :: cs) := by
  split
  · rename_i hc
    rcases hc with rfl | rfl <;> rfl
  · unfold readAfterDigits
    split <;> simp_all

theorem frames_readAfterDigits : Frames (readAfterDigits positive significand exponent) := by
  have hnone : Frames (realOfParts positive significand exponent) := frames_realOfParts
  refine hnone.of_cons (fun rest hrest => ?_) fun c => ?_
  · cases rest with
    | nil => rfl
    | cons c rest =>
      obtain ⟨-, -, he, hE⟩ := hrest c (by simp)
      rw [readAfterDigits_cons, if_neg (by simp [he, hE])]
  · simp only [readAfterDigits_cons]
    exact .ite frames_readExponent (hnone.cons c)

/-- Goes on behind the digits of a fraction. -/
def readAfterFraction (positive : Bool) (before : Int) : Nat × Nat × Bool → Step Number
  | (significand, places, true) => fun cs =>
    readAfterDigits positive significand (before - (places : Int)) (skipDigits cs)
  | (_, 0, false) => fun cs =>
    .error (.within (if cs.isEmpty then .endInValue else .invalidNumber) cs)
  | (significand, places + 1, false) =>
    readAfterDigits positive significand (before - ((places : Int) + 1))

theorem readFraction_eq : readFraction positive significand exponent = fun cs =>
    readAfterFraction positive exponent (scanFraction significand cs).1
      (scanFraction significand cs).2 := by
  funext cs
  unfold readFraction scanFraction
  rcases readFractionDigits significand 0 cs with ⟨value, places, full, rest⟩
  cases full with
  | true => rfl
  | false => cases places <;> rfl

theorem frames_readAfterFraction {digits : Nat × Nat × Bool} :
    Frames (readAfterFraction positive exponent digits) := by
  obtain ⟨value, places, full⟩ := digits
  cases full with
  | true => exact .scan framesScan_skipDigits fun _ => frames_readAfterDigits
  | false =>
    cases places with
    | zero => exact .error
    | succ places => exact frames_readAfterDigits

theorem frames_readFraction : Frames (readFraction positive significand exponent) := by
  rw [readFraction_eq]
  exact .scan framesScan_scanFraction fun _ => frames_readAfterFraction

/-! ## Whole numbers -/

/-- Goes on behind the digits of a number that no word holds. -/
def readAfterLong (positive : Bool) (significand places : Nat) : Step Number
  | '.' :: cs => readFraction positive significand (places : Int) cs
  | cs => readAfterDigits positive significand (places : Int) cs

theorem readAfterLong_cons {places : Nat} {c : Char} :
    readAfterLong positive significand places (c :: cs) =
      if c = '.' then readFraction positive significand (places : Int) cs
      else readAfterDigits positive significand (places : Int) (c :: cs) := by
  split
  · subst c
    rfl
  · unfold readAfterLong
    split <;> simp_all

theorem readLongNumber_eq : readLongNumber positive significand = fun cs =>
    readAfterLong positive significand (cs.length - (skipDigits cs).length) (skipDigits cs) := by
  funext cs
  unfold readLongNumber
  dsimp only
  cases skipDigits cs with
  | nil => rfl
  | cons c more =>
    rw [readAfterLong_cons]
    by_cases hpoint : c = '.'
    · subst hpoint
      rfl
    · rw [if_neg hpoint]
      split
      · simp_all
      · rfl

theorem frames_readAfterLong {places : Nat} :
    Frames (readAfterLong positive significand places) := by
  have hnone : Frames (readAfterDigits positive significand (places : Int)) :=
    frames_readAfterDigits
  refine hnone.of_cons (fun rest hrest => ?_) fun c => ?_
  · cases rest with
    | nil => rfl
    | cons c rest => rw [readAfterLong_cons, if_neg (hrest c (by simp)).2.1]
  · simp only [readAfterLong_cons]
    exact .ite frames_readFraction (hnone.cons c)

theorem frames_readLongNumber : Frames (readLongNumber positive significand) := by
  rw [readLongNumber_eq]
  exact .scan framesScan_countDigits fun _ => frames_readAfterLong

/-- What follows a whole number that a word holds. -/
theorem readAfterWhole_cons {c : Char} : readAfterWhole positive significand (c :: cs) =
    if c = '.' then readFraction positive significand 0 cs
    else if c = 'e' ∨ c = 'E' then readExponent positive significand 0 cs
    else .ok (wholeNumber positive significand, c :: cs) := by
  split
  · subst c
    rfl
  split
  · rename_i hc
    rcases hc with rfl | rfl <;> rfl
  · unfold readAfterWhole
    split <;> simp_all

theorem readAfterWhole_of_endsNumber (hrest : EndsNumber rest) :
    readAfterWhole positive significand rest = .ok (wholeNumber positive significand, rest) := by
  cases rest with
  | nil => rfl
  | cons c rest =>
    obtain ⟨-, hpoint, he, hE⟩ := hrest c (by simp)
    rw [readAfterWhole_cons, if_neg hpoint, if_neg (by simp [he, hE])]

theorem frames_readAfterWhole : Frames (readAfterWhole positive significand) := by
  have hnone : Frames fun cs => .ok (wholeNumber positive significand, cs) := .ok
  refine hnone.of_cons (fun rest hrest => readAfterWhole_of_endsNumber hrest) fun c => ?_
  simp only [readAfterWhole_cons]
  exact .ite frames_readFraction (.ite frames_readExponent (hnone.cons c))

theorem frames_readWholeDigits : Frames (readWholeDigits positive significand) := by
  intro cs
  induction cs generalizing significand with
  | nil =>
    intro a left rest hrest h
    have hwhole := frames_readAfterWhole [] a left rest hrest h
    cases rest with
    | nil => exact hwhole
    | cons c rest =>
      rw [List.nil_append, readWholeDigits, if_neg (hrest c (by simp)).1]
      exact hwhole
  | cons c cs ih =>
    intro a left rest hrest h
    rw [List.cons_append, readWholeDigits]
    rw [readWholeDigits] at h
    by_cases hc : c.isDigit
    · rw [if_pos hc] at h ⊢
      by_cases hlarge : maxWord < significand * 10 + digitValue c
      · rw [if_pos hlarge] at h ⊢
        exact frames_readLongNumber (c :: cs) a left rest hrest h
      · rw [if_neg hlarge] at h ⊢
        exact ih a left rest hrest h
    · rw [if_neg hc] at h ⊢
      exact frames_readAfterWhole (c :: cs) a left rest hrest h

/-- What follows a zero at the start of a number, which is no digit. -/
def readAfterZero (positive : Bool) : Step Number := fun cs =>
  if (cs.head?.map Char.isDigit).getD false then .error (.within .invalidNumber cs)
  else readAfterWhole positive 0 cs

theorem frames_readAfterZero : Frames (readAfterZero positive) := by
  have hnone : Frames fun cs => .ok (wholeNumber positive 0, cs) := .ok
  refine hnone.of_cons (fun rest hrest => ?_) fun c => ?_
  · have hdigit : ¬ (rest.head?.map Char.isDigit).getD false := by
      cases rest with
      | nil => simp
      | cons c rest => simpa using (hrest c (by simp)).1
    rw [readAfterZero, if_neg hdigit]
    exact readAfterWhole_of_endsNumber hrest
  · simp only [readAfterZero, List.head?_cons, Option.map_some, Option.getD_some]
    exact .ite (p := c.isDigit) .error (frames_readAfterWhole.cons c)

/-- What follows the sign of a number: a zero, or the digits. -/
theorem readUnsigned_cons {c : Char} : readUnsigned positive (c :: cs) =
    if c = '0' then readAfterZero positive cs
    else if c.isDigit then readWholeDigits positive (digitValue c) cs
    else .error (.within .invalidNumber (c :: cs)) := by
  split
  · subst c
    rfl
  · unfold readUnsigned
    split <;> simp_all

theorem frames_readUnsigned : Frames (readUnsigned positive) := by
  refine .of_cons_of_error rfl fun c => ?_
  simp only [readUnsigned_cons]
  exact .ite frames_readAfterZero (.ite frames_readWholeDigits .error)

theorem readNumber_cons {c : Char} : readNumber (c :: cs) =
    if c = '-' then readUnsigned false cs else readUnsigned true (c :: cs) := by
  split
  · subst c
    rfl
  · unfold readNumber
    split <;> simp_all

/-- **Numbers are read the same way in front of any text that does not go on with them.** -/
theorem frames_readNumber : Frames readNumber := by
  refine .of_cons_of_error rfl fun c => ?_
  simp only [readNumber_cons]
  exact .ite frames_readUnsigned (frames_readUnsigned.cons c)

/-- The text of a number starts with a sign or a digit. -/
theorem exists_cons_of_readNumber {n : Number} (h : readNumber cs = .ok (n, left)) :
    ∃ c more, cs = c :: more ∧ (c = '-' ∨ c.isDigit) := by
  cases cs with
  | nil => cases h
  | cons c cs =>
    rw [readNumber_cons, readUnsigned_cons] at h
    refine ⟨c, cs, rfl, ?_⟩
    by_cases hc : c = '-'
    · exact .inl hc
    · rw [if_neg hc] at h
      by_cases hzero : c = '0'
      · subst hzero
        exact .inr (by decide)
      · rw [if_neg hzero] at h
        by_cases hdigit : c.isDigit
        · exact .inr hdigit
        · rw [if_neg hdigit] at h
          cases h

/-- A number that reads back does so in front of any text that does not go on with it. -/
theorem Number.ReadsBack.readNumber_append {n : Number} (h : n.ReadsBack)
    (hrest : EndsNumber rest) : readNumber (n.text ++ rest) = .ok (n, rest) :=
  frames_readNumber n.text n [] rest hrest h

end IdlCompiler.Json
