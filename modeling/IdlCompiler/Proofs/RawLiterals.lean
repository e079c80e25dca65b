/-
# Reading raw literals

A raw literal opens with the letter r, number signs and a quotation mark, and goes on up to the
first quotation mark with as many number signs behind it as it opened with.  A text has no such
mark of its own if the literal has `rawHashes` number signs for it, `Target.rawHashes_spec`, and
so the literal is read as the text, `Target.readRawLiteral_rawLiteral`.  With fewer number signs,
but at least one, the literal would end early, and so `rawHashes` is the least count that works,
`Target.rawHashes_quotes_exactly`.
-/
import IdlCompiler.Target.Source
import Mathlib.Data.List.Infix
import Mathlib.Order.Bounds.Defs

namespace IdlCompiler.Target

/-- The characters in front of the first quotation mark with number signs behind it. -/
def readRawText (hashes : Nat) : List Char → Option (List Char)
  | [] => none
  | c :: cs =>
    if c = '"' ∧ List.replicate hashes '#' <+: cs then some []
    else (readRawText hashes cs).map (c :: ·)

/-- The text of the raw literal that a text starts with. -/
def readRawLiteral : List Char → Option (List Char)
  | 'r' :: cs =>
    match cs.dropWhile (· = '#') with
    | '"' :: rest => readRawText (cs.takeWhile (· = '#')).length rest
    | _ => none
  | _ => none

/-- A quotation mark with number signs behind it. -/
abbrev rawEnd (hashes : Nat) : List Char := '"' :: List.replicate hashes '#'

/-! ## Number signs behind quotation marks -/

theorem le_longestRun (longest : Nat) (run : Option Nat) (cs : List Char) :
    longest ≤ longestRun longest run cs := by
  induction cs generalizing longest run with
  | nil => exact le_rfl
  | cons c cs ih => exact (le_max_left _ _).trans (ih _ _)

/-- A run that the text goes on is counted to its end. -/
theorem add_le_longestRun {longest k j : Nat} (hk : k ≤ longest) {cs : List Char}
    (h : List.replicate j '#' <+: cs) : k + j ≤ longestRun longest (some k) cs := by
  induction j generalizing longest k cs with
  | zero => exact hk.trans (le_longestRun _ _ _)
  | succ j ih =>
    cases cs with
    | nil => simp [List.replicate_succ] at h
    | cons c cs =>
      rw [List.replicate_succ, List.cons_prefix_cons] at h
      obtain ⟨rfl, h⟩ := h
      have hrun : k + 1 + j ≤ longestRun (max longest (k + 1)) (some (k + 1)) cs :=
        ih (le_max_right _ _) h
      exact (by omega : k + (j + 1) = k + 1 + j) ▸ hrun

/-- Every run behind a quotation mark of the text is counted. -/
theorem le_longestRun_of_infix {j : Nat} {cs : List Char} (h : rawEnd j <:+: cs) (longest : Nat)
    (run : Option Nat) : j ≤ longestRun longest run cs := by
  induction cs generalizing longest run with
  | nil => simp at h
  | cons c cs ih =>
    obtain h | h := List.infix_cons_iff.1 h
    · obtain ⟨rfl, hrun⟩ := List.cons_prefix_cons.1 h
      have hle : 0 + j ≤ longestRun (max longest 0) (some 0) cs :=
        add_le_longestRun (Nat.zero_le _) hrun
      simpa [longestRun] using hle
    · exact ih h _ _

/-- **No quotation mark of a text has as many number signs behind it as its literal.** -/
theorem rawHashes_spec (text : String) : ¬ rawEnd (rawHashes text) <:+: text.toList := by
  intro h
  have hle := le_longestRun_of_infix h 0 none
  exact absurd hle (Nat.not_le.2 (Nat.lt_succ_self _))

/-! ## The literal is read as its text -/

/-- Number signs in front of a quotation mark do not go on behind it. -/
theorem replicate_prefix_of_append {n : Nat} {cs rest : List Char}
    (h : List.replicate n '#' <+: cs ++ '"' :: rest) : List.replicate n '#' <+: cs := by
  induction n generalizing cs with
  | zero => exact List.nil_prefix
  | succ n ih =>
    cases cs with
    | nil => simp [List.replicate_succ] at h
    | cons c cs =>
      rw [List.cons_append, List.replicate_succ, List.cons_prefix_cons] at h
      rw [List.replicate_succ, List.cons_prefix_cons]
      exact ⟨h.1, ih h.2⟩

theorem readRawText_append {n : Nat} {text : List Char} (h : ¬ rawEnd n <:+: text)
    (rest : List Char) : readRawText n (text ++ (rawEnd n ++ rest)) = some text := by
  induction text with
  | nil => simp [readRawText]
  | cons c cs ih =>
    have hcs : ¬ rawEnd n <:+: cs := fun hinside => h (List.infix_cons hinside)
    have hend : ¬ (c = '"' ∧ List.replicate n '#' <+: cs ++ (rawEnd n ++ rest)) := by
      rintro ⟨rfl, hrun⟩
      have hown := replicate_prefix_of_append hrun
      exact h (List.cons_prefix_cons.2 ⟨rfl, hown⟩).isInfix
    rw [List.cons_append, readRawText, if_neg hend, ih hcs]
    rfl

/-- Reading a literal is reading what stands behind the marks that open it. -/
theorem readRawLiteral_eq (n : Nat) (text : String) (rest : List Char) :
    readRawLiteral ((rawLiteral n text).toList ++ rest) =
      readRawText n (text.toList ++ (rawEnd n ++ rest)) := by
  have hsigns : ∀ cs : List Char,
      (List.replicate n '#' ++ '"' :: cs).dropWhile (· = '#') = '"' :: cs ∧
        ((List.replicate n '#' ++ '"' :: cs).takeWhile (· = '#')).length = n := by
    intro cs
    constructor
    · rw [List.dropWhile_append_of_pos (by simp)]
      simp
    · rw [List.takeWhile_append_of_pos (by simp)]
      simp
  have hchars : (rawLiteral n text).toList ++ rest =
      'r' :: (List.replicate n '#' ++ '"' :: (text.toList ++ (rawEnd n ++ rest))) := by
    simp [rawLiteral]
  rw [hchars, readRawLiteral, (hsigns _).1, (hsigns _).2]
  rfl

/-- **A raw literal is read as its text** if no quotation mark of the text ends it. -/
theorem readRawLiteral_rawLiteral {n : Nat} {text : String} (h : ¬ rawEnd n <:+: text.toList)
    (rest : List Char) :
    readRawLiteral ((rawLiteral n text).toList ++ rest) = some text.toList := by
  rw [readRawLiteral_eq]
  exact readRawText_append h rest

/-! ## The first end of a literal -/

/-- Behind `front` stands the first quotation mark with `n` number signs behind it. -/
def IsFirstEnd (n : Nat) (front cs : List Char) : Prop :=
  front ++ rawEnd n <+: cs ∧ ∀ other, other ++ rawEnd n <+: cs → front.length ≤ other.length

/-- **What is read as the text of a literal** is what stands in front of its first end. -/
theorem readRawText_eq_some_iff {n : Nat} {cs front : List Char} :
    readRawText n cs = some front ↔ IsFirstEnd n front cs := by
  induction cs generalizing front with
  | nil => simp [readRawText, IsFirstEnd]
  | cons c cs ih =>
    have hnil : [] ++ rawEnd n <+: c :: cs ↔ c = '"' ∧ List.replicate n '#' <+: cs := by
      rw [List.nil_append, List.cons_prefix_cons, eq_comm]
    rw [readRawText]
    split
    · rename_i hend
      -- the literal ends here, so that nothing else is in front of its first end
      simp only [Option.some.injEq]
      constructor
      · rintro rfl
        exact ⟨hnil.2 hend, fun _ _ => Nat.zero_le _⟩
      · rintro ⟨-, hfirst⟩
        exact (List.length_eq_zero_iff.1 (Nat.le_zero.1 (hfirst [] (hnil.2 hend)))).symm
    · rename_i hend
      rw [Option.map_eq_some_iff]
      constructor
      · rintro ⟨front, hread, rfl⟩
        obtain ⟨hfront, hfirst⟩ := ih.1 hread
        refine ⟨List.cons_prefix_cons.2 ⟨rfl, hfront⟩, fun other hother => ?_⟩
        cases other with
        | nil => exact absurd (hnil.1 hother) hend
        | cons d other =>
          exact Nat.succ_le_succ (hfirst other (List.cons_prefix_cons.1 hother).2)
      · rintro ⟨hfront, hfirst⟩
        cases front with
        | nil => exact absurd (hnil.1 hfront) hend
        | cons d front =>
          obtain ⟨rfl, hbehind⟩ := List.cons_prefix_cons.1 hfront
          refine ⟨front, ih.2 ⟨hbehind, fun other hother => ?_⟩, rfl⟩
          exact Nat.le_of_succ_le_succ
            (hfirst (d :: other) (List.cons_prefix_cons.2 ⟨rfl, hother⟩))

/-- A quotation mark of the text with as many number signs behind it ends the literal early. -/
theorem readRawLiteral_rawLiteral_ne {n : Nat} {text : String} (h : rawEnd n <:+: text.toList) :
    readRawLiteral (rawLiteral n text).toList ≠ some text.toList := by
  intro hread
  obtain ⟨front, behind, htext⟩ := h
  rw [← List.append_nil (rawLiteral n text).toList, readRawLiteral_eq,
    readRawText_eq_some_iff] at hread
  have hearly : front ++ rawEnd n <+: text.toList ++ (rawEnd n ++ []) :=
    ⟨behind ++ (rawEnd n ++ []), by rw [← List.append_assoc, htext]⟩
  have hle := hread.2 front hearly
  simp only [← htext, List.length_append, List.length_cons] at hle
  omega

/-! ## The least count that works -/

theorem longestRun_quote (longest : Nat) (run : Option Nat) (cs : List Char) :
    longestRun longest run ('"' :: cs) = longestRun longest (some 0) cs := by
  simp [longestRun]

theorem longestRun_sign (longest n : Nat) (cs : List Char) :
    longestRun longest (some n) ('#' :: cs) =
      longestRun (max longest (n + 1)) (some (n + 1)) cs := by
  simp [longestRun]

theorem longestRun_sign_none (longest : Nat) (cs : List Char) :
    longestRun longest none ('#' :: cs) = longestRun longest none cs := by
  simp [longestRun]

theorem longestRun_of_ne {c : Char} (hquote : c ≠ '"') (hsign : c ≠ '#') (longest : Nat)
    (run : Option Nat) (cs : List Char) :
    longestRun longest run (c :: cs) = longestRun longest none cs := by
  simp [longestRun, hquote, hsign]

/-- Where a count comes from: it was reached before, or by a run behind a quotation mark of the
text, or by the run that the text goes on. -/
theorem infix_or_prefix_of_le_longestRun {longest k : Nat} {run : Option Nat} {cs : List Char}
    (hrun : ∀ n ∈ run, n ≤ longest) (h : k ≤ longestRun longest run cs) (hnew : longest < k) :
    rawEnd k <:+: cs ∨ ∃ n ∈ run, List.replicate (k - n) '#' <+: cs := by
  induction cs generalizing longest run with
  | nil => exact absurd h (Nat.not_le.2 hnew)
  | cons c cs ih =>
    have hinside : rawEnd k <:+: cs → rawEnd k <:+: c :: cs := List.infix_cons
    by_cases hquote : c = '"'
    · -- a quotation mark starts a run of its own
      subst hquote
      rw [longestRun_quote] at h
      obtain hend | ⟨n, hn, hgoes⟩ := ih (by simp) h hnew
      · exact .inl (hinside hend)
      · obtain rfl := Option.some.inj hn
        exact .inl (List.cons_prefix_cons.2 ⟨rfl, hgoes⟩).isInfix
    by_cases hsign : c = '#'
    · subst hsign
      cases run with
      | none =>
        rw [longestRun_sign_none] at h
        exact .inl (hinside ((ih (by simp) h hnew).resolve_right (by simp)))
      | some n =>
        rw [longestRun_sign] at h
        have hn : n ≤ longest := hrun n rfl
        by_cases hlast : k = n + 1
        · -- the number sign is the last one that the count needs
          refine .inr ⟨n, rfl, ?_⟩
          simp [hlast]
        · obtain hend | ⟨m, hm, hgoes⟩ :=
            ih (fun m hm => Option.some.inj hm ▸ le_max_right _ _) h (by omega)
          · exact .inl (hinside hend)
          · obtain rfl := Option.some.inj hm
            obtain ⟨j, hj⟩ : ∃ j, k - n = j + 1 := ⟨k - n - 1, by omega⟩
            have hj' : k - (n + 1) = j := by omega
            refine .inr ⟨n, rfl, ?_⟩
            rw [hj, List.replicate_succ]
            exact List.cons_prefix_cons.2 ⟨rfl, hj' ▸ hgoes⟩
    · rw [longestRun_of_ne hquote hsign] at h
      exact .inl (hinside ((ih (by simp) h hnew).resolve_right (by simp)))

/-- **Fewer number signs do not do.**  A positive count is less than the count for a text exactly if
a quotation mark of the text has as many number signs behind it. -/
theorem lt_rawHashes_iff {text : String} {k : Nat} (hk : 0 < k) :
    k < rawHashes text ↔ rawEnd k <:+: text.toList := by
  rw [rawHashes, Nat.lt_succ_iff]
  constructor
  · intro h
    exact (infix_or_prefix_of_le_longestRun (by simp) h hk).resolve_right (by simp)
  · exact fun h => le_longestRun_of_infix h 0 none

/-- **Raw literals quote exactly.**  In a text with the end of its literal behind it, the first
quotation mark with as many number signs behind it as the literal has is the one of the end, and so
the literal is read as the text, whatever follows; for every smaller positive count, a quotation
mark of the text has as many number signs behind it; and so the count is the least positive one
with which the literal is read as the text. -/
theorem rawHashes_quotes_exactly (text : String) :
    (∀ rest, IsFirstEnd (rawHashes text) text.toList
      (text.toList ++ (rawEnd (rawHashes text) ++ rest))) ∧
    (∀ rest, readRawLiteral ((rawLiteral (rawHashes text) text).toList ++ rest) =
      some text.toList) ∧
    (∀ k, 1 ≤ k → k < rawHashes text → rawEnd k <:+: text.toList) ∧
    IsLeast {k | 1 ≤ k ∧ readRawLiteral (rawLiteral k text).toList = some text.toList}
      (rawHashes text) := by
  have hread := readRawLiteral_rawLiteral (rawHashes_spec text)
  have hsmaller : ∀ k, 1 ≤ k → k < rawHashes text → rawEnd k <:+: text.toList :=
    fun k hk => (lt_rawHashes_iff hk).1
  refine ⟨fun rest => ?_, hread, hsmaller, ⟨Nat.succ_pos _, by simpa using hread []⟩, ?_⟩
  · rw [← readRawText_eq_some_iff, ← readRawLiteral_eq]
    exact hread rest
  · rintro k ⟨hk, hreadk⟩
    by_contra hlt
    exact readRawLiteral_rawLiteral_ne (hsmaller k hk (Nat.lt_of_not_le hlt)) hreadk

/-- Two number signs do not do for a text in which two of them stand behind a quotation mark. -/
theorem rawHashes_quotes_twoSigns :
    1 ≤ 2 ∧ 2 < rawHashes "x \"## y \"# z" ∧ rawEnd 2 <:+: "x \"## y \"# z".toList := by
  have hlt : 2 < rawHashes "x \"## y \"# z" := by decide
  exact ⟨by decide, hlt, (rawHashes_quotes_exactly _).2.2.1 2 (by decide) hlt⟩

end IdlCompiler.Target
