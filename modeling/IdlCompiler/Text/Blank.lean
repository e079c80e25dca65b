/-
# White space, trimming and lines

The white-space characters of Unicode, the removal of white space at the ends of a text,
and the division of a text into lines.  Texts are lists of characters here, as every
reader of this library works on lists.  The main statements say that nothing is lost when
a text is cut into pieces: `pieces_flatten` for lines and `joinWith_splitOn` for parts.
-/

namespace IdlCompiler.Text

/-- The characters of Unicode that have the property `White_Space`. -/
def isBlank (c : Char) : Bool :=
  let n := c.toNat
  (9 ≤ n && n ≤ 13) || n == 32 || n == 0x85 || n == 0xA0 || n == 0x1680
    || (0x2000 ≤ n && n ≤ 0x200A) || n == 0x2028 || n == 0x2029 || n == 0x202F
    || n == 0x205F || n == 0x3000

/-- The text without the blanks it starts with. -/
def trimStart (cs : List Char) : List Char := cs.dropWhile isBlank

/-- The text without the blanks it ends with. -/
def trimEnd (cs : List Char) : List Char := (cs.reverse.dropWhile isBlank).reverse

/-- The text without the blanks at either end. -/
def trim (cs : List Char) : List Char := trimEnd (trimStart cs)

/-- The pieces of a text that end with a line feed, each with its line feed, and the
rest if it is not empty. -/
def pieces : List Char → List (List Char)
  | [] => []
  | c :: cs =>
    if c = '\n' then [c] :: pieces cs
    else match pieces cs with
      | [] => [[c]]
      | p :: ps => (c :: p) :: ps

/-- A piece without its line ending, which is a line feed or a carriage return followed
by one.  A carriage return that no line feed follows belongs to the line. -/
def dropLineEnd (piece : List Char) : List Char :=
  match piece.reverse with
  | '\n' :: '\r' :: cs => cs.reverse
  | '\n' :: cs => cs.reverse
  | cs => cs.reverse

/-- The lines of a text, without their endings.  A line feed at the very end starts no
further line. -/
def lines (cs : List Char) : List (List Char) := (pieces cs).map dropLineEnd

/-- The texts one after the other, with `sep` between neighbours. -/
def joinWith (sep : List Char) : List (List Char) → List Char
  | [] => []
  | [t] => t
  | t :: ts => t ++ sep ++ joinWith sep ts

/-- Divides a text after the characters of a class that it starts with. -/
def cut (p : Char → Bool) (cs : List Char) : List Char × List Char :=
  (cs.takeWhile p, cs.dropWhile p)

/-- The parts of a text between the occurrences of `sep`; a text without `sep` is its
only part. -/
def splitOn (sep : Char) : List Char → List (List Char)
  | [] => [[]]
  | c :: cs =>
    if c = sep then [] :: splitOn sep cs
    else match splitOn sep cs with
      | [] => [[c]]
      | p :: ps => (c :: p) :: ps

/-- The texts before and behind the last occurrence of `sep`. -/
def splitLast? (sep : Char) : List Char → Option (List Char × List Char)
  | [] => none
  | c :: cs =>
    match splitLast? sep cs with
    | some (before, behind) => some (c :: before, behind)
    | none => if c = sep then some ([], cs) else none

/-! ## Small laws -/

theorem isBlank_of_isWhitespace {c : Char} (h : c.isWhitespace) : isBlank c := by
  simp only [Char.isWhitespace, Bool.or_eq_true, decide_eq_true_eq] at h
  rcases h with ((rfl | rfl) | rfl) | rfl <;> decide

@[simp] theorem cut_append (p : Char → Bool) (cs : List Char) :
    (cut p cs).1 ++ (cut p cs).2 = cs := List.takeWhile_append_dropWhile

theorem cut_append_of_forall {p : Char → Bool} {cs : List Char} (h : ∀ c ∈ cs, p c)
    (rest : List Char) : cut p (cs ++ rest) = (cs ++ (cut p rest).1, (cut p rest).2) := by
  rw [cut, cut, List.takeWhile_append_of_pos h, List.dropWhile_append_of_pos h]

theorem forall_mem_cut {p : Char → Bool} {cs : List Char} : ∀ c ∈ (cut p cs).1, p c :=
  List.all_eq_true.1 List.all_takeWhile

theorem pieces_cons (c : Char) (cs : List Char) : pieces (c :: cs) =
    if c = '\n' then [c] :: pieces cs
    else match pieces cs with
      | [] => [[c]]
      | p :: ps => (c :: p) :: ps := rfl

theorem pieces_flatten (cs : List Char) : (pieces cs).flatten = cs := by
  induction cs with
  | nil => rfl
  | cons c cs ih =>
    rw [pieces_cons]
    split
    · simp [ih]
    · split <;> simp_all

theorem splitOn_cons (sep c : Char) (cs : List Char) : splitOn sep (c :: cs) =
    if c = sep then [] :: splitOn sep cs
    else match splitOn sep cs with
      | [] => [[c]]
      | p :: ps => (c :: p) :: ps := rfl

theorem splitOn_ne_nil (sep : Char) (cs : List Char) : splitOn sep cs ≠ [] := by
  induction cs with
  | nil => exact List.cons_ne_nil _ _
  | cons c cs ih =>
    rw [splitOn_cons]
    split
    · simp
    · split <;> simp

theorem joinWith_splitOn (sep : Char) (cs : List Char) :
    joinWith [sep] (splitOn sep cs) = cs := by
  induction cs with
  | nil => rfl
  | cons c cs ih =>
    rw [splitOn_cons]
    split
    · rename_i h
      subst h
      cases hs : splitOn c cs with
      | nil => exact absurd hs (splitOn_ne_nil _ _)
      | cons p ps => rw [hs] at ih; simp [joinWith, ih]
    · cases hs : splitOn sep cs with
      | nil => exact absurd hs (splitOn_ne_nil _ _)
      | cons p ps =>
        rw [hs] at ih
        cases ps with
        | nil => simpa [joinWith] using ih
        | cons q qs => simpa [joinWith] using ih

theorem splitLast?_cons (sep c : Char) (cs : List Char) : splitLast? sep (c :: cs) =
    match splitLast? sep cs with
    | some (before, behind) => some (c :: before, behind)
    | none => if c = sep then some ([], cs) else none := rfl

theorem splitLast?_eq_none_iff {sep : Char} {cs : List Char} :
    splitLast? sep cs = none ↔ sep ∉ cs := by
  induction cs with
  | nil => exact iff_of_true rfl List.not_mem_nil
  | cons c cs ih =>
    rw [splitLast?_cons]
    split
    · rename_i h
      simp only [reduceCtorEq, List.mem_cons, not_or, false_iff, not_and, Classical.not_not]
      exact fun _ => Classical.byContradiction fun hn => by simp [ih.2 hn] at h
    · rename_i h
      by_cases hc : c = sep
      · simp [hc]
      · simp [hc, ih.1 h, Ne.symm hc]

theorem eq_of_splitLast?_eq_some {sep : Char} {cs before behind : List Char}
    (h : splitLast? sep cs = some (before, behind)) :
    cs = before ++ sep :: behind ∧ sep ∉ behind := by
  induction cs generalizing before with
  | nil => cases h
  | cons c cs ih =>
    rw [splitLast?_cons] at h
    split at h
    · rename_i b r hs
      obtain ⟨rfl, rfl⟩ := Prod.mk.inj (Option.some.inj h)
      obtain ⟨h₁, h₂⟩ := ih hs
      exact ⟨by rw [h₁]; rfl, h₂⟩
    · rename_i hs
      split at h
      · rename_i hc
        obtain ⟨rfl, rfl⟩ := Prod.mk.inj (Option.some.inj h)
        exact ⟨by rw [hc]; rfl, splitLast?_eq_none_iff.1 hs⟩
      · simp at h

theorem splitLast?_append {sep : Char} {before behind : List Char} (h : sep ∉ behind) :
    splitLast? sep (before ++ sep :: behind) = some (before, behind) := by
  induction before with
  | nil => simp [splitLast?_cons, splitLast?_eq_none_iff.2 h]
  | cons c before ih => simp [splitLast?_cons, ih]

end IdlCompiler.Text
