/-
# Literals of JSON texts

What the reader of JSON takes as a number or as a string is a single lexeme of interface
definitions, and the reader gives the same for the lexeme alone.

Main statements: `exists_of_readNumber` and `exists_of_readString`.  Each step of reading a number
takes a text of some shape and does the same with less text behind it, `Takes`.  The step has
this property if the steps that it is put together from have it: one that looks at a character
first, `Takes.look`, or one that goes over digits, `Takes.loop`.
-/
import IdlCompiler.Proofs.Lexemes
import IdlCompiler.Proofs.PrettyText

namespace IdlCompiler.Json

open Idl (AreDigits IsFraction IsExponent IsQuotable IsLexeme)

/-- What a step takes has a shape, and the step does the same where less text stands behind. -/
def Takes {α : Type} (shape : List Char → Prop) (step : Step α) : Prop :=
  ∀ cs a rest, step cs = .ok (a, rest) → ∃ taken, cs = taken ++ rest ∧ shape taken ∧
    ∀ more, more <+: rest → step (taken ++ more) = .ok (a, more)

theorem skipDigits_cons {c : Char} {cs : List Char} (hc : c.isDigit) :
    skipDigits (c :: cs) = skipDigits cs := by
  simp [skipDigits, hc]

theorem length_sub_skipDigits {c : Char} {cs : List Char} :
    (c :: cs).length - (skipDigits cs).length = 1 + (cs.length - (skipDigits cs).length) := by
  have hlength : (skipDigits cs).length ≤ cs.length := List.length_dropWhile_le _ _
  rw [List.length_cons]
  omega

/-- A text that a step reads to its end is read as a whole. -/
theorem readWhole_of_ok {α : Type} {step : Step α} {text : List Char} {a : α}
    (h : step text = .ok (a, [])) : readWhole step text = .ok a := by
  rw [readWhole, h]
  rfl

/-! ## Putting steps together -/

namespace Takes

variable {α : Type} {shape shape' : List Char → Prop} {step other : Step α}

theorem mono (h : Takes shape step) (hshape : ∀ taken, shape taken → shape' taken) :
    Takes shape' step := by
  intro cs a rest hstep
  obtain ⟨taken, hcs, htaken, hmore⟩ := h cs a rest hstep
  exact ⟨taken, hcs, hshape taken htaken, hmore⟩

theorem error {stop : List Char → Stop} : Takes (α := α) shape fun cs => .error (stop cs) := nofun

theorem ok {a : α} (hnil : shape []) : Takes shape fun cs => .ok (a, cs) := by
  intro cs b rest h
  obtain ⟨rfl, rfl⟩ := Prod.mk.inj (Except.ok.inj h)
  exact ⟨[], rfl, hnil, fun _ _ => rfl⟩

theorem ite {p : Prop} [Decidable p] (h : Takes shape step) (h' : Takes shape other) :
    Takes shape fun cs => if p then step cs else other cs := by
  by_cases hp : p
  · simpa only [hp, if_true] using h
  · simpa only [hp, if_false] using h'

/-- A step that takes characters of a class one after the other, until it goes over to another
step behind such a character, `long`, or at the first other character, `finish`. -/
theorem loop {σ : Type} {p : Char → Prop} [DecidablePred p] (full : σ → Char → Prop)
    [∀ s c, Decidable (full s c)] (next : σ → Char → σ) (step finish : σ → Step α)
    (long : σ → Char → Step α) (hnil : ∀ s, step s [] = finish s [])
    (hcons : ∀ s c cs, step s (c :: cs) =
      if p c then (if full s c then long s c cs else step (next s c) cs) else finish s (c :: cs))
    (hfinish : ∀ s, Takes shape (finish s))
    (hlong : ∀ s c, p c → full s c → Takes (fun taken => shape (c :: taken)) (long s c))
    (hshape : ∀ s c taken, p c → ¬ full s c → shape taken → shape (c :: taken)) (s : σ) :
    Takes shape (step s) := by
  intro cs a rest h
  induction cs generalizing s with
  | nil =>
    obtain ⟨taken, hcs, htaken, -⟩ := hfinish s [] a rest (hnil s ▸ h)
    obtain ⟨rfl, rfl⟩ := List.append_eq_nil_iff.1 hcs.symm
    refine ⟨[], rfl, htaken, fun more hmore => ?_⟩
    rw [List.prefix_nil.1 hmore]
    exact h
  | cons c cs ih =>
    rw [hcons] at h
    by_cases hc : p c
    · rw [if_pos hc] at h
      have htakes : ∃ taken, cs = taken ++ rest ∧ shape (c :: taken) ∧ ∀ more, more <+: rest →
          (if full s c then long s c (taken ++ more) else step (next s c) (taken ++ more)) =
            .ok (a, more) := by
        by_cases hfull : full s c
        · simp only [if_pos hfull] at h ⊢
          exact hlong s c hc hfull cs a rest h
        · simp only [if_neg hfull] at h ⊢
          obtain ⟨taken, hcs, htaken, hmore⟩ := ih (next s c) h
          exact ⟨taken, hcs, hshape s c taken hc hfull htaken, hmore⟩
      obtain ⟨taken, hcs, htaken, hmore⟩ := htakes
      refine ⟨c :: taken, by rw [hcs]; rfl, htaken, fun more hprefix => ?_⟩
      rw [List.cons_append, hcons, if_pos hc]
      exact hmore more hprefix
    · rw [if_neg hc] at h
      obtain ⟨taken, hcs, htaken, hmore⟩ := hfinish s _ a rest h
      refine ⟨taken, hcs, htaken, fun more hprefix => ?_⟩
      rw [← hmore more hprefix]
      -- what is left of the text is empty or starts with `c` as well
      cases hleft : taken ++ more with
      | nil => exact hnil s
      | cons d ds =>
        have hstart : d :: ds <+: c :: cs := by
          rw [← hleft, hcs]
          exact (List.prefix_append_right_inj taken).2 hprefix
        obtain rfl := (List.cons_prefix_cons.1 hstart).1
        rw [hcons, if_neg hc]

/-- A step that takes a character of a class, if one is there. -/
theorem look {p : Char → Prop} [DecidablePred p] (taking : Char → Step α) (other : Step α)
    (hnil : step [] = other [])
    (hcons : ∀ c cs, step (c :: cs) = if p c then taking c cs else other (c :: cs))
    (htaking : ∀ c, p c → Takes (fun taken => shape (c :: taken)) (taking c))
    (hother : Takes shape other) : Takes shape step :=
  loop (σ := Unit) (fun _ _ => True) (fun _ _ => ()) (fun _ => step) (fun _ => other)
    (fun _ => taking) (fun _ => hnil) (fun _ c cs => by rw [hcons, if_pos trivial])
    (fun _ => hother) (fun _ c hc _ => htaking c hc) (fun _ _ _ _ hfull => absurd trivial hfull) ()

/-- A step behind digits, which may depend on how many there are. -/
theorem skip (next : Nat → Step α) (hnext : ∀ n, Takes shape (next n))
    (hshape : ∀ c taken, c.isDigit → shape taken → shape (c :: taken)) (before : Nat) :
    Takes shape fun cs =>
      next (before + (cs.length - (skipDigits cs).length)) (skipDigits cs) := by
  refine loop (p := fun c => c.isDigit) (fun _ _ => False) (fun n _ => n + 1)
    (fun n cs => next (n + (cs.length - (skipDigits cs).length)) (skipDigits cs)) next
    (fun n _ => next n) (fun _ => rfl) (fun n c cs => ?_) hnext (fun _ _ _ hfull => hfull.elim)
    (fun _ c taken hc _ => hshape c taken hc) before
  by_cases hc : c.isDigit
  · rw [if_pos hc, if_neg id, skipDigits_cons hc, length_sub_skipDigits, Nat.add_assoc]
  · have hskip : skipDigits (c :: cs) = c :: cs := by simp [skipDigits, hc]
    rw [if_neg hc, hskip, Nat.sub_self, Nat.add_zero]

end Takes

/-! ## Numbers -/

section Numbers

variable {shape : List Char → Prop} {positive up : Bool} {significand places : Nat} {exponent : Int}

theorem takes_realOfParts (hnil : shape []) :
    Takes shape (realOfParts positive significand exponent) := by
  unfold realOfParts
  cases scale (exponent.natAbs / 308 + 1) significand.toUInt64.toFloat exponent with
  | none => exact .error
  | some x => exact .ok hnil

/-- Digits, perhaps none. -/
def AllDigits (taken : List Char) : Prop := ∀ c ∈ taken, c.isDigit

theorem allDigits_nil : AllDigits [] := nofun

theorem AllDigits.cons {c : Char} {taken : List Char} (hc : c.isDigit) (h : AllDigits taken) :
    AllDigits (c :: taken) := List.forall_mem_cons.2 ⟨hc, h⟩

theorem AllDigits.areDigits {c : Char} {taken : List Char} (hc : c.isDigit) (h : AllDigits taken) :
    AreDigits (c :: taken) := ⟨List.cons_ne_nil _ _, h.cons hc⟩

/-- A text of one shape and one of another behind it. -/
def Joined (first second : List Char → Prop) (taken : List Char) : Prop :=
  ∃ cs ds, taken = cs ++ ds ∧ first cs ∧ second ds

theorem Joined.of_nil {first second : List Char → Prop} {taken : List Char} (hnil : first [])
    (h : second taken) : Joined first second taken := ⟨[], taken, rfl, hnil, h⟩

theorem Joined.cons {first first' second : List Char → Prop} {c : Char} {taken : List Char}
    (hfirst : ∀ cs, first cs → first' (c :: cs)) (h : Joined first second taken) :
    Joined first' second (c :: taken) := by
  obtain ⟨cs, ds, rfl, hcs, hds⟩ := h
  exact ⟨c :: cs, ds, rfl, hfirst cs hcs, hds⟩

theorem takes_readAfterExponent_none :
    Takes AllDigits (readAfterExponent positive significand exponent up none) :=
  .ite .error (Takes.skip _ (fun _ => Takes.ok allDigits_nil) (fun _ _ hc h => h.cons hc) 0)

theorem takes_readExponentDigits (value : Nat) : Takes AllDigits fun cs =>
    readAfterExponent positive significand exponent up (readExponentDigits value cs).1
      (readExponentDigits value cs).2 := by
  refine .loop (p := fun c => c.isDigit) (fun value c => maxExponent < value * 10 + digitValue c)
    (fun value c => value * 10 + digitValue c)
    (fun value cs => readAfterExponent positive significand exponent up
      (readExponentDigits value cs).1 (readExponentDigits value cs).2)
    (fun value => readAfterExponent positive significand exponent up (some value))
    (fun _ _ => readAfterExponent positive significand exponent up none)
    (fun _ => rfl) (fun value c cs => ?_) (fun _ => takes_realOfParts allDigits_nil)
    (fun _ c hc _ => takes_readAfterExponent_none.mono fun _ h => h.cons hc)
    (fun _ _ _ hc _ h => h.cons hc) value
  rw [readExponentDigits]
  split
  · split <;> rfl
  · rfl

/-- Why a number stops where there is no digit. -/
def withoutDigit : List Char → Stop
  | [] => .before .endInValue []
  | c :: rest => .within .invalidNumber (c :: rest)

theorem takes_readExponentAfterSign :
    Takes AreDigits (readExponentAfterSign positive significand exponent up) :=
  .look (p := fun c => c.isDigit) _ (fun cs => .error (withoutDigit cs))
    rfl (fun _ _ => readExponentAfterSign_cons)
    (fun _ hc => (takes_readExponentDigits _).mono fun _ h => h.areDigits hc) .error

/-- The sign of an exponent, or nothing. -/
def IsSign (taken : List Char) : Prop := taken = [] ∨ taken = ['+'] ∨ taken = ['-']

theorem takes_readExponent :
    Takes (Joined IsSign AreDigits) (readExponent positive significand exponent) := by
  refine .look (p := fun c => c = '+' ∨ c = '-')
    (fun c => readExponentAfterSign positive significand exponent (c = '+'))
    (readExponentAfterSign positive significand exponent true) rfl (fun c cs => ?_)
    (fun c hc => takes_readExponentAfterSign.mono fun taken h => ?_)
    (takes_readExponentAfterSign.mono fun taken h => .of_nil (.inl rfl) h)
  · rw [readExponent_cons]
    by_cases hplus : c = '+'
    · simp [hplus]
    · simp [hplus]
  · exact ⟨[c], taken, rfl, .inr (by simpa using hc), h⟩

theorem takes_readAfterDigits :
    Takes IsExponent (readAfterDigits positive significand exponent) := by
  refine .look (p := fun c => c = 'e' ∨ c = 'E')
    (fun _ => readExponent positive significand exponent)
    (realOfParts positive significand exponent)
    rfl (fun _ _ => readAfterDigits_cons) (fun c hc => takes_readExponent.mono ?_)
    (takes_realOfParts IsExponent.none)
  rintro _ ⟨sign, digits, rfl, hsign, hdigits⟩
  exact .some hc hsign hdigits

theorem takes_skipDigits_readAfterDigits : Takes (Joined AllDigits IsExponent) fun cs =>
    readAfterDigits positive significand exponent (skipDigits cs) :=
  Takes.skip (fun _ => readAfterDigits positive significand exponent)
    (fun _ => takes_readAfterDigits.mono fun _ => .of_nil allDigits_nil)
    (fun _ _ hc => .cons fun _ h => h.cons hc) 0

/-- Goes over the digits of a fraction and on behind them. -/
def readFractionFrom (positive : Bool) (exponent : Int) (digits : Nat × Nat) (cs : List Char) :
    Except Stop (Number × List Char) :=
  readAfterFraction positive exponent
    ((readFractionDigits digits.1 digits.2 cs).1, (readFractionDigits digits.1 digits.2 cs).2.1,
      (readFractionDigits digits.1 digits.2 cs).2.2.1)
    (readFractionDigits digits.1 digits.2 cs).2.2.2

theorem readFractionFrom_cons {digits : Nat × Nat} {c : Char} {cs : List Char} :
    readFractionFrom positive exponent digits (c :: cs) =
      if c.isDigit then
        if maxWord < digits.1 * 10 + digitValue c then
          readAfterDigits positive digits.1 (exponent - (digits.2 : Int)) (skipDigits cs)
        else readFractionFrom positive exponent (digits.1 * 10 + digitValue c, digits.2 + 1) cs
      else readAfterFraction positive exponent (digits.1, digits.2, false) (c :: cs) := by
  rw [readFractionFrom, readFractionDigits]
  by_cases hc : c.isDigit
  · simp only [if_pos hc]
    split
    · rw [← skipDigits_cons hc]
      rfl
    · rfl
  · simp only [if_neg hc]

theorem takes_readAfterFraction_false {digits : Nat × Nat} : Takes (Joined AllDigits IsExponent)
    (readAfterFraction positive exponent (digits.1, digits.2, false)) := by
  obtain ⟨value, places⟩ := digits
  cases places with
  | zero => exact .error
  | succ places => exact takes_readAfterDigits.mono fun _ => .of_nil allDigits_nil

theorem takes_readFractionFrom (digits : Nat × Nat) :
    Takes (Joined AllDigits IsExponent) (readFractionFrom positive exponent digits) :=
  .loop (p := fun c => c.isDigit) (fun digits c => maxWord < digits.1 * 10 + digitValue c)
    (fun digits c => (digits.1 * 10 + digitValue c, digits.2 + 1))
    (readFractionFrom positive exponent)
    (fun digits => readAfterFraction positive exponent (digits.1, digits.2, false))
    (fun digits _ cs =>
      readAfterDigits positive digits.1 (exponent - (digits.2 : Int)) (skipDigits cs))
    (fun _ => rfl) (fun _ _ _ => readFractionFrom_cons) (fun _ => takes_readAfterFraction_false)
    (fun _ _ hc _ => takes_skipDigits_readAfterDigits.mono fun _ => .cons fun _ h => h.cons hc)
    (fun _ _ _ hc _ => .cons fun _ h => h.cons hc) digits

theorem takes_readFraction :
    Takes (Joined AreDigits IsExponent) (readFraction positive significand exponent) := by
  have heq : readFraction positive significand exponent =
      readFractionFrom positive exponent (significand, 0) := readFraction_eq
  rw [heq]
  refine .look (p := fun c => c.isDigit)
    (fun c cs => if maxWord < significand * 10 + digitValue c then
      readAfterDigits positive significand (exponent - ((0 : Nat) : Int)) (skipDigits cs)
      else readFractionFrom positive exponent (significand * 10 + digitValue c, 1) cs)
    (readAfterFraction positive exponent (significand, 0, false))
    rfl (fun _ _ => readFractionFrom_cons) (fun c hc => ?_) .error
  exact (takes_skipDigits_readAfterDigits.ite (takes_readFractionFrom _)).mono
    fun _ => .cons fun _ h => h.areDigits hc

/-- A fraction and an exponent, each of which may be missing. -/
abbrev IsRealPart : List Char → Prop := Joined IsFraction IsExponent

theorem takes_readFraction_point : Takes (fun taken => IsRealPart ('.' :: taken))
    (readFraction positive significand exponent) :=
  takes_readFraction.mono fun _ => .cons fun _ h => .some h

theorem isRealPart_of_isExponent {taken : List Char} (h : IsExponent taken) : IsRealPart taken :=
  .of_nil .none h

theorem takes_readAfterLong : Takes IsRealPart (readAfterLong positive significand places) :=
  .look (p := fun c => c = '.') (fun _ => readFraction positive significand (places : Int))
    (readAfterDigits positive significand (places : Int)) rfl
    (fun _ _ => readAfterLong_cons) (fun _ hc => hc ▸ takes_readFraction_point)
    (takes_readAfterDigits.mono fun _ => isRealPart_of_isExponent)

theorem takes_readAfterWhole : Takes IsRealPart (readAfterWhole positive significand) := by
  refine .look (p := fun c => c = '.' ∨ c = 'e' ∨ c = 'E')
    (fun c => if c = '.' then readFraction positive significand 0
      else readExponent positive significand 0)
    (fun cs => .ok (wholeNumber positive significand, cs)) rfl (fun c cs => ?_)
    (fun c hc => ?_) (.ok (isRealPart_of_isExponent .none))
  · rw [readAfterWhole_cons]
    by_cases hpoint : c = '.'
    · simp [hpoint]
    · simp [hpoint]
  · by_cases hpoint : c = '.'
    · subst hpoint
      exact takes_readFraction_point
    · rw [if_neg hpoint]
      refine takes_readExponent.mono fun _ => ?_
      rintro ⟨sign, digits, rfl, hsign, hdigits⟩
      exact isRealPart_of_isExponent (.some (hc.resolve_left hpoint) hsign hdigits)

theorem takes_readLongNumber {c : Char} (hc : c.isDigit) :
    Takes (fun taken => Joined AllDigits IsRealPart (c :: taken)) fun cs =>
      readLongNumber positive significand (c :: cs) := by
  simp only [readLongNumber_eq, skipDigits_cons hc, length_sub_skipDigits]
  have htakes : Takes (Joined AllDigits IsRealPart) fun cs =>
      readAfterLong positive significand (1 + (cs.length - (skipDigits cs).length))
        (skipDigits cs) :=
    Takes.skip (fun n => readAfterLong positive significand n)
      (fun _ => takes_readAfterLong.mono fun _ => .of_nil allDigits_nil)
      (fun _ _ hd => .cons fun _ h => h.cons hd) 1
  exact htakes.mono fun _ => .cons fun _ h => h.cons hc

theorem takes_readWholeDigits (significand : Nat) :
    Takes (Joined AllDigits IsRealPart) (readWholeDigits positive significand) :=
  .loop (p := fun c => c.isDigit) (fun significand c => maxWord < significand * 10 + digitValue c)
    (fun significand c => significand * 10 + digitValue c)
    (readWholeDigits positive) (readAfterWhole positive)
    (fun significand c cs => readLongNumber positive significand (c :: cs))
    (fun _ => rfl) (fun _ _ _ => rfl)
    (fun _ => takes_readAfterWhole.mono fun _ => .of_nil allDigits_nil)
    (fun _ _ hc _ => takes_readLongNumber hc)
    (fun _ _ _ hc _ => .cons fun _ h => h.cons hc) significand

theorem takes_readAfterZero : Takes IsRealPart (readAfterZero positive) := by
  refine .look (p := fun c => c.isDigit)
    (fun c cs => .error (.within .invalidNumber (c :: cs))) (readAfterWhole positive 0) rfl
    (fun c cs => ?_) (fun _ _ => .error)
    takes_readAfterWhole
  by_cases hc : c.isDigit <;> simp [readAfterZero, hc]

theorem takes_readUnsigned :
    Takes (Joined AreDigits IsRealPart) (readUnsigned positive) := by
  refine .look (p := fun c => c.isDigit)
    (fun c => if c = '0' then readAfterZero positive
      else readWholeDigits positive (digitValue c))
    (fun cs => .error (withoutDigit cs)) rfl (fun c cs => ?_) (fun c hc => ?_) .error
  · rw [readUnsigned_cons]
    by_cases hzero : c = '0'
    · subst hzero
      rfl
    · simp [hzero, withoutDigit]
  · have hmore : Takes (Joined AllDigits IsRealPart)
        (if c = '0' then readAfterZero positive else readWholeDigits positive (digitValue c)) := by
      split
      · exact takes_readAfterZero.mono fun _ => .of_nil allDigits_nil
      · exact takes_readWholeDigits _
    exact hmore.mono fun _ => .cons fun _ h => h.areDigits hc

theorem takes_readNumber :
    Takes (fun taken => IsLexeme (.numberLiteral (String.ofList taken)) taken) readNumber := by
  have hlexeme (sign taken : List Char) (hsign : sign = [] ∨ sign = ['-'])
      (h : Joined AreDigits IsRealPart taken) :
      IsLexeme (.numberLiteral (String.ofList (sign ++ taken))) (sign ++ taken) := by
    obtain ⟨digits, _, rfl, hdigits, fraction, exponent, rfl, hfraction, hexponent⟩ := h
    rw [← List.append_assoc digits]
    exact .numberLiteral hsign hdigits hfraction hexponent
  refine .look (p := fun c => c = '-') (fun _ => readUnsigned false)
    (readUnsigned true) rfl (fun _ _ => readNumber_cons) (fun c hc => ?_)
    (takes_readUnsigned.mono fun taken => hlexeme [] taken (.inl rfl))
  subst hc
  exact takes_readUnsigned.mono fun taken => hlexeme ['-'] taken (.inr rfl)

/-- **A number is read as one lexeme**, which stands for the same number alone. -/
theorem exists_of_readNumber {n : Number} {cs rest : List Char}
    (h : readNumber cs = .ok (n, rest)) : ∃ taken, cs = taken ++ rest ∧
      IsLexeme (.numberLiteral (String.ofList taken)) taken ∧
      Json.read (String.ofList taken) = .ok (.number n) := by
  obtain ⟨taken, hcs, hlexeme, hsame⟩ := takes_readNumber cs n rest h
  have hread : readNumber taken = .ok (n, []) := by
    simpa using hsame [] (List.nil_prefix)
  obtain ⟨c, ds, rfl, hc⟩ := exists_cons_of_readNumber hread
  refine ⟨c :: ds, hcs, hlexeme, ?_⟩
  rw [Json.read, String.toList_ofList]
  refine readWhole_of_ok ?_
  rw [readValue_of_startsNumber hc, readScalar_of_startsNumber hc, hread]
  rfl

end Numbers

/-! ## Strings -/

section Strings

variable {c : Char} {chars cs rest : List Char} {n rounds : Nat}

theorem isQuotable_cons_of_hexValue? (h : hexValue? c = some n) (hcs : IsQuotable cs) :
    IsQuotable (c :: cs) := by
  refine .plain ?_ ?_ hcs
  · rintro rfl
    exact absurd h (by simp [hexValue?])
  · rintro rfl
    exact absurd h (by simp [hexValue?])

theorem exists_of_readHex (h : readHex cs = .ok (n, rest)) : ∃ digits, cs = digits ++ rest ∧
    IsQuotable digits ∧ ∀ more, readHex (digits ++ more) = .ok (n, more) := by
  unfold readHex at h
  dsimp only at h
  split at h
  · cases h
  split at h
  · rename_i a b c d more _
    split at h
    · rename_i ha hb hc hd
      obtain ⟨rfl, rfl⟩ := Prod.mk.inj (Except.ok.inj h)
      refine ⟨[a, b, c, d], rfl, ?_, fun more => ?_⟩
      · exact isQuotable_cons_of_hexValue? ha (isQuotable_cons_of_hexValue? hb
          (isQuotable_cons_of_hexValue? hc (isQuotable_cons_of_hexValue? hd .nil)))
      · unfold readHex
        dsimp only [List.cons_append, List.nil_append]
        rw [if_neg (Nat.not_lt.2 four_le_byteCount)]
        simp only [ha, hb, hc, hd]
    · cases h
  · cases h

theorem eq_cons_of_readPairMark {mark : Char} (h : readPairMark mark cs = .ok rest) :
    cs = mark :: rest := by
  unfold readPairMark at h
  split at h
  · cases h
  · split at h
    · rename_i hmark
      obtain rfl := Except.ok.inj h
      rw [hmark]
    · cases h

theorem exists_of_readUnicode (h : readUnicode cs = .ok (c, rest)) : ∃ taken,
    cs = taken ++ rest ∧ IsQuotable taken ∧
      ∀ more, readUnicode (taken ++ more) = .ok (c, more) := by
  unfold readUnicode at h
  obtain ⟨⟨high, rest₁⟩, hhigh, hbehind⟩ := Except.bind_eq_ok_iff.1 h
  clear h
  obtain ⟨digits, rfl, hdigits, hsame⟩ := exists_of_readHex hhigh
  dsimp only at hbehind
  split at hbehind
  · cases hbehind
  rename_i hlow
  split at hbehind
  · rename_i hplain
    obtain ⟨rfl, rfl⟩ := Prod.mk.inj (Except.ok.inj hbehind)
    refine ⟨digits, rfl, hdigits, fun more => ?_⟩
    unfold readUnicode
    rw [hsame]
    simp only [bind, Except.bind, if_neg hlow, if_pos hplain]
  · rename_i hpair
    obtain ⟨rest₂, hmark, hpair'⟩ := Except.bind_eq_ok_iff.1 hbehind
    obtain ⟨rest₃, hmark', hlast⟩ := Except.bind_eq_ok_iff.1 hpair'
    obtain ⟨⟨low, rest₄⟩, hread, hend⟩ := Except.bind_eq_ok_iff.1 hlast
    clear hbehind hpair' hlast
    obtain rfl := eq_cons_of_readPairMark hmark
    obtain rfl := eq_cons_of_readPairMark hmark'
    obtain ⟨digits', rfl, hdigits', hsame'⟩ := exists_of_readHex hread
    dsimp only at hend
    split at hend
    · cases hend
    rename_i hsecond
    obtain ⟨rfl, rfl⟩ := Prod.mk.inj (Except.ok.inj hend)
    refine ⟨digits ++ '\\' :: 'u' :: digits', by simp,
      hdigits.append (.escape (by decide) hdigits'),
      fun more => ?_⟩
    unfold readUnicode
    rw [List.append_assoc, hsame]
    simp only [bind, Except.bind, if_neg hlow, if_neg hpair, List.cons_append, readPairMark,
      if_true, hsame', if_neg hsecond]

theorem exists_of_readEscape (h : readEscape cs = .ok (c, rest)) : ∃ taken,
    cs = taken ++ rest ∧ IsQuotable ('\\' :: taken) ∧
      ∀ more, readEscape (taken ++ more) = .ok (c, more) := by
  have hshort (d : Char) (hline : d ≠ '\n')
      (hsame : ∀ more, readEscape (d :: more) = .ok (c, more)) :
      ∃ taken, d :: rest = taken ++ rest ∧ IsQuotable ('\\' :: taken) ∧
        ∀ more, readEscape (taken ++ more) = .ok (c, more) :=
    ⟨[d], rfl, .escape hline .nil, hsame⟩
  unfold readEscape at h
  split at h
  · cases h
  · cases h; exact hshort _ (by decide) fun _ => rfl
  · cases h; exact hshort _ (by decide) fun _ => rfl
  · cases h; exact hshort _ (by decide) fun _ => rfl
  · cases h; exact hshort _ (by decide) fun _ => rfl
  · cases h; exact hshort _ (by decide) fun _ => rfl
  · cases h; exact hshort _ (by decide) fun _ => rfl
  · cases h; exact hshort _ (by decide) fun _ => rfl
  · cases h; exact hshort _ (by decide) fun _ => rfl
  · obtain ⟨taken, rfl, htaken, hsame⟩ := exists_of_readUnicode h
    exact ⟨'u' :: taken, rfl, .escape (by decide) htaken, hsame⟩
  · cases h

/-- Reading the characters of a string takes them and the closing quotation mark. -/
theorem exists_of_readChars (h : readChars rounds cs = .ok (chars, rest)) : ∃ inside,
    cs = inside ++ '"' :: rest ∧ IsQuotable inside ∧ ∀ rounds more, inside.length < rounds →
      readChars rounds (inside ++ '"' :: more) = .ok (chars, more) := by
  induction rounds generalizing cs chars with
  | zero => cases h
  | succ rounds ih =>
    cases cs with
    | nil => cases h
    | cons c cs =>
      rw [readChars] at h
      split at h
      · rename_i hquote
        obtain ⟨rfl, rfl⟩ := Prod.mk.inj (Except.ok.inj h)
        refine ⟨[], by rw [hquote]; rfl, .nil, fun rounds more hrounds => ?_⟩
        cases rounds with
        | zero => cases hrounds
        | succ rounds => rfl
      rename_i hquote
      split at h
      · rename_i hbackslash
        subst hbackslash
        obtain ⟨⟨d, rest₁⟩, hescape, h⟩ := Except.bind_eq_ok_iff.1 h
        obtain ⟨⟨ds, rest₂⟩, hchars, heq⟩ := Except.bind_eq_ok_iff.1 h
        cases heq
        obtain ⟨taken, rfl, htaken, hsame⟩ := exists_of_readEscape hescape
        obtain ⟨inside, rfl, hinside, hsame'⟩ := ih hchars
        refine ⟨'\\' :: (taken ++ inside), by simp, htaken.append hinside,
          fun rounds more hrounds => ?_⟩
        cases rounds with
        | zero => cases hrounds
        | succ rounds =>
          have hlength : inside.length < rounds := by
            simp only [List.length_cons, List.length_append] at hrounds
            omega
          rw [List.cons_append, List.append_assoc, readChars, if_neg (by decide), if_pos rfl, hsame]
          dsimp only [bind, Except.bind]
          rw [hsame' rounds more hlength]
          rfl
      rename_i hbackslash
      split at h
      · cases h
      rename_i hcontrol
      obtain ⟨⟨ds, rest₂⟩, hchars, heq⟩ := Except.bind_eq_ok_iff.1 h
      cases heq
      obtain ⟨inside, rfl, hinside, hsame⟩ := ih hchars
      refine ⟨c :: inside, rfl, .plain hquote hbackslash hinside, fun rounds more hrounds => ?_⟩
      cases rounds with
      | zero => cases hrounds
      | succ rounds =>
        rw [List.cons_append, readChars, if_neg hquote, if_neg hbackslash, if_neg hcontrol,
          hsame rounds more (Nat.lt_of_succ_lt_succ hrounds)]
        rfl

/-- **A string is read as one lexeme**, which stands for the same string alone. -/
theorem exists_of_readString {s : String} (h : readString cs = .ok (s, rest)) : ∃ inside,
    cs = inside ++ '"' :: rest ∧ IsQuotable inside ∧
      readStringText (String.ofList ('"' :: (inside ++ ['"']))) = .ok s := by
  obtain ⟨⟨chars, rest'⟩, hchars, heq⟩ := Except.bind_eq_ok_iff.1 h
  cases heq
  obtain ⟨inside, rfl, hinside, hsame⟩ := exists_of_readChars hchars
  refine ⟨inside, rfl, hinside, ?_⟩
  have hread : readString (inside ++ ['"']) = .ok (String.ofList chars, []) := by
    rw [readString, hsame _ [] (by simp only [List.length_append, List.length_singleton]; omega)]
    rfl
  rw [readStringText, String.toList_ofList]
  exact readWhole_of_ok hread

end Strings

end IdlCompiler.Json
