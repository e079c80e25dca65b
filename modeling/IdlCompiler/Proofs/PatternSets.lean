/-
# Which sets of patterns are read

A list of texts is a set of patterns exactly if each of its texts is blank or can be used by
itself, and what the set matches is what one of its texts matches.  So neither the order of the
texts nor how often one of them is there makes a difference.

Main statements: `exists_readAll_eq_ok_iff` and `anyMatch_readAll`.
-/
import IdlCompiler.Glob.Set
import IdlCompiler.Proofs.Results

namespace IdlCompiler.Glob

variable {globs : List String} {patterns : List Pattern} {pattern : Pattern} {path : String}

/-! ## Single texts -/

/-- A text without its blanks. -/
def trimmed (glob : String) : List Char := Text.trim glob.toList

/-- A text is a pattern; the blanks around it do not belong to it. -/
def IsPattern (glob : String) (pattern : Pattern) : Prop :=
  trimmed glob ≠ [] ∧ Pattern.ofText (String.ofList (trimmed glob)) = .ok pattern

/-- A text is a pattern that matches a path. -/
def Matches (glob path : String) : Prop := ∃ pattern, IsPattern glob pattern ∧ pattern.isMatch path

/-- A pattern can be used: where comparing texts is not enough, it does not nest too deeply. -/
def Pattern.IsUsable (pattern : Pattern) : Prop :=
  pattern.method = .comparison ∨ pattern.isTooDeep = false

/-- A text may be in a set of patterns: it is blank, or it is a pattern that can be used. -/
def IsAllowed (glob : String) : Prop :=
  trimmed glob = [] ∨ ∃ pattern, IsPattern glob pattern ∧ pattern.IsUsable

/-! ## Sets -/

theorem findTooDeep?_eq_none : findTooDeep? globs patterns = none ↔
    (patterns.filter fun pattern => pattern.method = .ownExpression).find? Pattern.isTooDeep = none ∧
      (patterns.filter fun pattern => pattern.method = .jointExpression).findIdx?
        Pattern.isTooDeep = none := by
  simp only [findTooDeep?]
  split <;> simp_all

/-- Only patterns that get an expression can be refused. -/
theorem findTooDeep?_eq_none_iff (globs : List String) :
    findTooDeep? globs patterns = none ↔ ∀ pattern ∈ patterns, pattern.IsUsable := by
  simp only [findTooDeep?_eq_none, List.find?_eq_none, List.findIdx?_eq_none_iff, List.mem_filter,
    decide_eq_true_eq, and_imp, Bool.not_eq_true, ← forall_and]
  refine forall_congr' fun pattern => ?_
  cases hmethod : pattern.method with
  | comparison | ownExpression | jointExpression => simp [Pattern.IsUsable, hmethod]
  | nameExpression =>
    have hname : pattern.isForName := by
      unfold Pattern.method at hmethod
      grind
    simp [Pattern.IsUsable, Pattern.isTooDeep_of_isForName hname]

/-- The texts of a set that are read. -/
def presentTexts (globs : List String) : List (List Char) :=
  (globs.map trimmed).filter fun cs => !cs.isEmpty

theorem mem_presentTexts {cs : List Char} :
    cs ∈ presentTexts globs ↔ ∃ glob ∈ globs, trimmed glob ≠ [] ∧ trimmed glob = cs := by
  simp only [presentTexts, List.mem_filter, List.mem_map, Bool.not_eq_true',
    List.isEmpty_eq_false_iff]
  constructor
  · rintro ⟨⟨glob, hglob, rfl⟩, hne⟩
    exact ⟨glob, hglob, hne, rfl⟩
  · rintro ⟨glob, hglob, hne, rfl⟩
    exact ⟨⟨glob, hglob, rfl⟩, hne⟩

/-- Reads the texts of a set that count. -/
def readPresent (globs : List String) : Except Error (List Pattern) :=
  (presentTexts globs).mapM fun cs => Pattern.ofText (String.ofList cs)

theorem readAll_eq (globs : List String) : readAll globs = (do
    let patterns ← (readPresent globs).mapError .malformed
    match findTooDeep? globs patterns with
    | some error => throw error
    | none => return patterns) := rfl

theorem readAll_eq_ok_iff : readAll globs = .ok patterns ↔
    readPresent globs = .ok patterns ∧ ∀ pattern ∈ patterns, pattern.IsUsable := by
  rw [readAll_eq, ← findTooDeep?_eq_none_iff globs]
  cases readPresent globs with
  | error e => simp [bind, Except.bind]
  | ok found =>
    simp only [mapError_ok, bind, Except.bind, Except.ok.injEq]
    constructor
    · intro h
      split at h
      · cases h
      · rename_i hnone
        cases h
        exact ⟨rfl, hnone⟩
    · rintro ⟨rfl, hnone⟩
      rw [hnone]
      rfl

/-- The patterns of a set are those of its texts. -/
theorem mem_of_readAll_eq_ok (h : readAll globs = .ok patterns) (pattern : Pattern) :
    pattern ∈ patterns ↔ ∃ glob ∈ globs, IsPattern glob pattern := by
  rw [mem_of_mapM_eq_ok (readAll_eq_ok_iff.mp h).1 pattern]
  simp only [mem_presentTexts, IsPattern]
  constructor
  · rintro ⟨_, ⟨glob, hglob, hne, rfl⟩, hpattern⟩
    exact ⟨glob, hglob, hne, hpattern⟩
  · rintro ⟨glob, hglob, hne, hpattern⟩
    exact ⟨_, ⟨glob, hglob, hne, rfl⟩, hpattern⟩

/-- A list of texts is a set of patterns if each of them may be in one. -/
theorem exists_readAll_eq_ok_iff :
    (∃ patterns, readAll globs = .ok patterns) ↔ ∀ glob ∈ globs, IsAllowed glob := by
  constructor
  · rintro ⟨patterns, h⟩ glob hglob
    obtain ⟨hread, husable⟩ := readAll_eq_ok_iff.mp h
    by_cases hblank : trimmed glob = []
    · exact .inl hblank
    · obtain ⟨pattern, hpattern⟩ := exists_mapM_eq_ok_iff.mp ⟨patterns, hread⟩ (trimmed glob)
        (mem_presentTexts.mpr ⟨glob, hglob, hblank, rfl⟩)
      have hmem := (mem_of_readAll_eq_ok h pattern).mpr ⟨glob, hglob, hblank, hpattern⟩
      exact .inr ⟨pattern, ⟨hblank, hpattern⟩, husable pattern hmem⟩
  · intro hallowed
    have hmember {glob : String} (hglob : glob ∈ globs) (hne : trimmed glob ≠ []) :
        ∃ pattern, IsPattern glob pattern ∧ pattern.IsUsable :=
      (hallowed glob hglob).resolve_left hne
    obtain ⟨patterns, hread⟩ : ∃ patterns, readPresent globs = .ok patterns := by
      refine exists_mapM_eq_ok_iff.mpr fun cs hcs => ?_
      obtain ⟨glob, hglob, hne, rfl⟩ := mem_presentTexts.mp hcs
      obtain ⟨pattern, ⟨-, hpattern⟩, -⟩ := hmember hglob hne
      exact ⟨pattern, hpattern⟩
    refine ⟨patterns, readAll_eq_ok_iff.mpr ⟨hread, fun pattern hmem => ?_⟩⟩
    obtain ⟨cs, hcs, hpattern⟩ := (mem_of_mapM_eq_ok hread pattern).mp hmem
    obtain ⟨glob, hglob, hne, rfl⟩ := mem_presentTexts.mp hcs
    obtain ⟨other, ⟨-, hother⟩, husable⟩ := hmember hglob hne
    obtain rfl : other = pattern := Except.ok.inj (hother.symm.trans hpattern)
    exact husable

/-- A set matches what one of its texts matches. -/
theorem anyMatch_readAll (h : readAll globs = .ok patterns) (path : String) :
    anyMatch patterns path ↔ ∃ glob ∈ globs, Matches glob path := by
  simp only [anyMatch_iff, mem_of_readAll_eq_ok h, Matches]
  constructor
  · rintro ⟨pattern, ⟨glob, hglob, hpattern⟩, hmatch⟩
    exact ⟨glob, hglob, pattern, hpattern, hmatch⟩
  · rintro ⟨glob, hglob, pattern, hpattern, hmatch⟩
    exact ⟨pattern, ⟨glob, hglob, hpattern⟩, hmatch⟩

end IdlCompiler.Glob
