/-
# Documentation in comments

Documentation may be any text, and in generated code every line of it becomes a comment of its own
line.  Nothing of it comes to stand outside of the comments, as no line holds a line feed.  A
carriage return is another matter: it ends no line of documentation unless a line feed follows it,
blanks at the end of a line are dropped, and any other carriage return is kept.  A comment with a
carriage return in it is not a legal one.

Main statements: `hasStrayReturn_eq`, which documentation has such a carriage return;
`areComments_flatMap_docLine_iff`, what the comments of lines are; and `areComments_docChars`.
-/
import IdlCompiler.Proofs.EnumLines

namespace IdlCompiler

namespace Text

/-! ## Blanks at the end -/

theorem trimEnd_cons (c : Char) (cs : List Char) : trimEnd (c :: cs) =
    if trimEnd cs = [] then (if isBlank c then [] else [c]) else c :: trimEnd cs := by
  simp only [trimEnd, List.reverse_cons, List.dropWhile_append, List.reverse_eq_nil_iff,
    List.isEmpty_iff]
  split
  · by_cases h : isBlank c <;> simp [h]
  · simp

theorem trimEnd_eq_nil_iff {cs : List Char} : trimEnd cs = [] ↔ ∀ c ∈ cs, isBlank c := by
  induction cs with
  | nil => simp [trimEnd]
  | cons c cs ih =>
    rw [trimEnd_cons, List.forall_mem_cons, ← ih]
    by_cases h : trimEnd cs = [] <;> by_cases hc : isBlank c <;> simp [h, hc]

theorem trim_eq_nil_iff {cs : List Char} : trim cs = [] ↔ trimEnd cs = [] := by
  rw [trim, trimEnd_eq_nil_iff, trimEnd_eq_nil_iff, trimStart]
  refine ⟨fun h c hc => ?_, fun h c hc => h c ((List.dropWhile_sublist _).subset hc)⟩
  rw [← List.takeWhile_append_dropWhile (p := isBlank) (l := cs), List.mem_append] at hc
  exact hc.elim (fun hc => List.all_eq_true.1 List.all_takeWhile c hc) (h c)

/-- A line ending is made of blanks. -/
theorem trimEnd_dropLineEnd (piece : List Char) : trimEnd (dropLineEnd piece) = trimEnd piece := by
  have hfeed : isBlank '\n' := by decide
  have hreturn : isBlank '\r' := by decide
  rw [dropLineEnd]
  split <;> rename_i h <;> simp [trimEnd, h, hfeed, hreturn]

/-- A text is divided at its first line feed in one way. -/
theorem append_feed_inj {l l' rest rest' : List Char} (hl : '\n' ∉ l) (hl' : '\n' ∉ l')
    (h : l ++ '\n' :: rest = l' ++ '\n' :: rest') : l = l' ∧ rest = rest' := by
  have upToFeed : ∀ l rest : List Char, '\n' ∉ l →
      (l ++ '\n' :: rest).takeWhile (· ≠ '\n') = l := by
    intro l rest hl
    rw [List.takeWhile_append_of_pos fun c hc => by simpa using ne_of_mem_of_not_mem hc hl]
    simp
  obtain rfl : l = l' := by rw [← upToFeed l rest hl, h, upToFeed l' rest' hl']
  exact ⟨rfl, by simpa using h⟩

/-! ## Stray carriage returns -/

/-- Tells whether something that is no blank follows a carriage return in its line. -/
def hasStrayReturn : List Char → Bool
  | [] => false
  | c :: cs =>
    (c = '\r' && (cs.takeWhile (· ≠ '\n')).any fun d => !isBlank d) || hasStrayReturn cs

/-- A carriage return stays in front of a text that has more than blanks. -/
theorem contains_trimEnd_cons (c : Char) (cs : List Char) :
    (trimEnd (c :: cs)).contains '\r' =
      ((c = '\r' && cs.any fun d => !isBlank d) || (trimEnd cs).contains '\r') := by
  have hany : (cs.any fun d => !isBlank d) = decide (trimEnd cs ≠ []) := by
    rw [Bool.eq_iff_iff, decide_eq_true_eq, Ne, trimEnd_eq_nil_iff]
    simp
  rw [hany, trimEnd_cons]
  by_cases h : trimEnd cs = []
  · have hreturn : isBlank '\r' := by decide
    by_cases hc : c = '\r'
    · simp [h, hc, hreturn]
    · by_cases hb : isBlank c <;> simp [h, hb, Ne.symm hc]
  · by_cases hc : c = '\r' <;> simp [h, hc, eq_comm]

/-- The first piece of a text holds what is in front of the first line feed. -/
theorem any_of_pieces_eq_cons {cs p : List Char} {ps : List (List Char)}
    (h : pieces cs = p :: ps) :
    (p.any fun d => !isBlank d) = (cs.takeWhile (· ≠ '\n')).any fun d => !isBlank d := by
  induction cs generalizing p ps with
  | nil => cases h
  | cons c cs ih =>
    rw [pieces_cons] at h
    split at h
    · rename_i hc
      obtain ⟨rfl, -⟩ := List.cons.inj h
      simp [hc, isBlank]
    · rename_i hc
      cases hpieces : pieces cs with
      | nil =>
        have hcs : cs = [] := by rw [← pieces_flatten cs, hpieces]; rfl
        rw [hpieces] at h
        obtain ⟨rfl, -⟩ := List.cons.inj h
        simp [hc, hcs]
      | cons q qs =>
        rw [hpieces] at h
        obtain ⟨rfl, -⟩ := List.cons.inj h
        simp only [List.any_cons, ih hpieces]
        simp [hc]

/-- A text has a stray carriage return exactly if one is left in a line without the blanks at its
end. -/
theorem hasStrayReturn_eq (cs : List Char) :
    hasStrayReturn cs = (lines cs).any fun l => (trimEnd l).contains '\r' := by
  have hlines : ((lines cs).any fun l => (trimEnd l).contains '\r') =
      (pieces cs).any fun p => (trimEnd p).contains '\r' := by
    simp [lines, List.any_map, Function.comp_def, trimEnd_dropLineEnd]
  rw [hlines]
  clear hlines
  induction cs with
  | nil => rfl
  | cons c cs ih =>
    rw [hasStrayReturn, ih, pieces_cons]
    split
    · rename_i hc
      simp [hc, trimEnd, isBlank]
    · cases hpieces : pieces cs with
      | nil =>
        have hcs : cs = [] := by rw [← pieces_flatten cs, hpieces]; rfl
        have hnil : trimEnd [] = [] := rfl
        simp only [hcs, List.any_cons, List.any_nil, contains_trimEnd_cons, hnil]
        simp
      | cons p ps =>
        rw [← any_of_pieces_eq_cons hpieces, List.any_cons, List.any_cons, contains_trimEnd_cons,
          Bool.or_assoc]

end Text

namespace Target

/-! ## Comments one below the other -/

/-- Texts that are made of documentation comments and nothing else: every line has the
indentation, three slashes, and perhaps a space and what the comment says, which holds no line feed
and is `legal`. -/
inductive AreComments (indent : List Char) (legal : List Char → Prop) : List Char → Prop
  | none : AreComments indent legal []
  | blank {rest : List Char} (behind : AreComments indent legal rest) :
      AreComments indent legal (indent ++ '/' :: '/' :: '/' :: '\n' :: rest)
  | saying {text rest : List Char} (inLine : '\n' ∉ text) (holds : legal text)
      (behind : AreComments indent legal rest) :
      AreComments indent legal (indent ++ '/' :: '/' :: '/' :: ' ' :: (text ++ '\n' :: rest))

section Comments

variable {indent text rest cs : List Char} {legal : List Char → Prop}

theorem AreComments.cases (h : AreComments indent legal cs) : cs = [] ∨
    (∃ rest, cs = indent ++ '/' :: '/' :: '/' :: '\n' :: rest ∧ AreComments indent legal rest) ∨
    ∃ text rest, cs = indent ++ '/' :: '/' :: '/' :: ' ' :: (text ++ '\n' :: rest) ∧
      '\n' ∉ text ∧ legal text ∧ AreComments indent legal rest := by
  cases h with
  | none => exact .inl rfl
  | blank behind => exact .inr (.inl ⟨_, rfl, behind⟩)
  | saying inLine holds behind => exact .inr (.inr ⟨_, _, rfl, inLine, holds, behind⟩)

theorem areComments_blank_iff :
    AreComments indent legal (indent ++ '/' :: '/' :: '/' :: '\n' :: rest) ↔
      AreComments indent legal rest := by
  refine ⟨fun h => ?_, .blank⟩
  rcases h.cases with h | ⟨rest', h, hrest⟩ | ⟨text, rest', h, -⟩
  · simp at h
  · simpa [(by simpa using h : rest = rest')] using hrest
  · simp at h

theorem areComments_saying_iff (inLine : '\n' ∉ text) :
    AreComments indent legal (indent ++ '/' :: '/' :: '/' :: ' ' :: (text ++ '\n' :: rest)) ↔
      legal text ∧ AreComments indent legal rest := by
  refine ⟨fun h => ?_, fun h => .saying inLine h.1 h.2⟩
  rcases h.cases with h | ⟨rest', h, -⟩ | ⟨text', rest', h, hline', hlegal, hrest⟩
  · simp at h
  · simp at h
  · -- what a comment says ends at the first line feed
    simp only [List.append_cancel_left_eq, List.cons.injEq, true_and] at h
    obtain ⟨rfl, rfl⟩ := Text.append_feed_inj inLine hline' h
    exact ⟨hlegal, hrest⟩

/-- The comment of a line says the line without the blanks at its end, if that is not empty. -/
theorem docLine_append (indent l rest : List Char) : docLine indent l ++ rest =
    if Text.trimEnd l = [] then indent ++ '/' :: '/' :: '/' :: '\n' :: rest
    else indent ++ '/' :: '/' :: '/' :: ' ' :: (Text.trimEnd l ++ '\n' :: rest) := by
  rw [docLine]
  by_cases h : Text.trimEnd l = []
  · simp [h, Text.trim_eq_nil_iff]
  · simp [h, Text.trim_eq_nil_iff]

/-- The comments of lines are comments, and they say what the lines say. -/
theorem areComments_flatMap_docLine_iff {ls : List (List Char)} (hls : ∀ l ∈ ls, '\n' ∉ l) :
    AreComments indent legal (ls.flatMap (docLine indent)) ↔
      ∀ l ∈ ls, Text.trimEnd l ≠ [] → legal (Text.trimEnd l) := by
  induction ls with
  | nil => simp [AreComments.none]
  | cons l ls ih =>
    obtain ⟨hl, hls⟩ := List.forall_mem_cons.1 hls
    rw [List.flatMap_cons, docLine_append, List.forall_mem_cons]
    split
    · rename_i h
      simp [areComments_blank_iff, ih hls, h]
    · rename_i h
      rw [areComments_saying_iff fun hmem => hl (Text.mem_of_mem_trimEnd hmem), ih hls]
      simp [h]

end Comments

/-- **Documentation stays inside comments, and the comments are legal unless a carriage return
strays.**  At every indentation the text that is made of documentation, whatever it says, consists
of documentation comments, each on a line of its own.  None of them says a carriage return exactly
if no carriage return in the documentation is followed by more than blanks in its line. -/
theorem areComments_docChars (indent : List Char) (doc : Option String) :
    AreComments indent (fun _ => True) (docChars indent doc) ∧
      (AreComments indent (fun text => '\r' ∉ text) (docChars indent doc) ↔
        ∀ text ∈ doc, Text.hasStrayReturn text.toList = false) := by
  cases doc with
  | none => exact ⟨.none, by simp [docChars, AreComments.none]⟩
  | some text =>
    have hlines : ∀ l ∈ Text.lines text.toList, '\n' ∉ l := fun l hl => Text.notMem_of_mem_lines hl
    refine ⟨(areComments_flatMap_docLine_iff hlines).2 fun _ _ _ => trivial, ?_⟩
    rw [docChars, areComments_flatMap_docLine_iff hlines]
    simp only [Option.mem_def, Option.some.injEq, forall_eq', Text.hasStrayReturn_eq,
      List.any_eq_false, List.contains_iff_mem]
    refine forall₂_congr fun l _ => ⟨fun h hmem => ?_, fun h _ => h⟩
    exact h (List.ne_nil_of_mem hmem) hmem

example : docLines 1 (some "a\rb\r\n\r\nc\n") = "    /// a\rb\n    ///\n    /// c\n" := by decide

end Target

end IdlCompiler
