/-
# What lasts in a file tree

In a later tree directories and links are what they were, and files are files.  Paths lead where
they led, and a discovery finds what it found if nothing below its directory has changed and
links there lead to what they led to.

Main statements: `Lasts.locate_eq`, `does_discover_of_unchanged` and `IsSource.readText_eq`.
-/
import IdlCompiler.Proofs.Compilations
import IdlCompiler.Proofs.Directories
import IdlCompiler.Proofs.Discoveries

namespace IdlCompiler

open IdlCompiler.Path (IsName walked joinAll)

namespace FileTree

variable {t u v : FileTree} {l : Location} {root path : String} {names : List String}

/-- Directories and links are in another tree what they are here, and files are files. -/
structure Lasts (t u : FileTree) : Prop where
  stays : ∀ m, t.Stays u m
  isFileAt : ∀ m, t.IsFileAt m → u.IsFileAt m

namespace Lasts

theorem of_grows {area : Location → Prop} (h : Grows area t u) : t.Lasts u :=
  ⟨h.stays, fun _ => h.isFileAt⟩

theorem of_entryAt?_eq (h : ∀ m, t.entryAt? m ≠ none → u.entryAt? m = t.entryAt? m) :
    t.Lasts u where
  stays m := ⟨fun hm => h m (by simp [hm]) ▸ hm, fun _ hm => h m (by simp [hm]) ▸ hm⟩
  isFileAt := by
    rintro m ⟨content, modified, hm⟩
    exact ⟨content, modified, h m (by simp [hm]) ▸ hm⟩

theorem trans (h : t.Lasts u) (h' : u.Lasts v) : t.Lasts v where
  stays m := ⟨fun hm => (h'.stays m).1 ((h.stays m).1 hm),
    fun target hm => (h'.stays m).2 target ((h.stays m).2 target hm)⟩
  isFileAt m hm := h'.isFileAt m (h.isFileAt m hm)

/-- What is there stays what it is: a file, a directory or a link. -/
theorem entry_cases (h : t.Lasts u) (hl : t.entryAt? l ≠ none) :
    t.IsFileAt l ∧ u.IsFileAt l ∨
      t.entryAt? l = some .directory ∧ u.entryAt? l = some .directory ∨
      ∃ target, t.entryAt? l = some (.link target) ∧ u.entryAt? l = some (.link target) := by
  cases hentry : t.entryAt? l with
  | none => exact absurd hentry hl
  | some entry =>
    cases entry with
    | file content modified =>
      have hfile : t.IsFileAt l := ⟨content, modified, hentry⟩
      exact .inl ⟨hfile, h.isFileAt l hfile⟩
    | directory => exact .inr (.inl ⟨rfl, (h.stays l).1 hentry⟩)
    | link target => exact .inr (.inr ⟨target, rfl, (h.stays l).2 target hentry⟩)

theorem ne_none (h : t.Lasts u) (hl : t.entryAt? l ≠ none) : u.entryAt? l ≠ none := by
  obtain ⟨-, _, _, hlater⟩ | ⟨-, hlater⟩ | ⟨_, -, hlater⟩ := h.entry_cases hl <;> simp [hlater]

theorem leads {n : Nat} {here : Location} {way : List Location} (h : t.Lasts u)
    (hl : t.Leads .target n here names way l) (hthere : t.entryAt? l ≠ none) :
    u.Leads .target n here names way l := by
  refine hl.mono (fun m _ => h.stays m) fun hends => ?_
  obtain ⟨-, _, _, hfile⟩ | ⟨hdirectory, -⟩ | ⟨_, hlink, -⟩ := h.entry_cases hthere
  · simp [Ends, hfile]
  · simp [Ends, hdirectory] at hends
  · simp [Ends, hlink] at hends

/-- A path that leads to an entry leads there in the later tree. -/
theorem locate_eq (h : t.Lasts u) (hl : t.locate .target path = .ok l)
    (hthere : t.entryAt? l ≠ none) : u.locate .target path = .ok l := by
  obtain ⟨hcheck, way, hway⟩ := locate_eq_ok_iff.mp hl
  exact locate_eq_ok_iff.mpr ⟨hcheck, way, h.leads hway hthere⟩

/-- A path that fails for another reason than that something is missing fails in a later tree. -/
theorem followWithin_eq_error {n : Nat} {here : Location} {e : Error} (h : t.Lasts u)
    (he : e ≠ .notFound)
    (hfails : t.followWithin .target n here names = .error e) :
    u.followWithin .target n here names = .error e := by
  -- The names behind a link are led along after it, over fewer links.
  induction n generalizing here names with
  | zero | succ n ihlinks =>
    induction names generalizing here with
    | nil => simp at hfails
    | cons name rest ih =>
      rcases Path.name_cases name with hidle | rfl | plain
      · rw [followWithin_idle hidle] at hfails ⊢
        exact ih hfails
      · rw [followWithin_up] at hfails ⊢
        exact ih hfails
      rw [followWithin_plain plain, if_neg (by simp)] at hfails ⊢
      split at hfails
      · rwa [if_pos ‹_›]
      rw [if_neg ‹_›]
      cases hentry : t.entryAt? (here ++ [name]) with
      | none =>
        rw [hentry] at hfails
        dsimp only at hfails
        split at hfails
        · simp at hfails
        · exact absurd (Except.error.inj hfails).symm he
      | some entry =>
        rw [hentry] at hfails
        cases entry with
        | file content modified =>
          obtain ⟨_, _, hfile⟩ := h.isFileAt _ ⟨_, _, hentry⟩
          rw [hfile]
          exact hfails
        | directory =>
          rw [(h.stays _).1 hentry]
          exact ih hfails
        | link target =>
          have hfollowed : ¬ (rest.isEmpty && decide (Purpose.target = .entry)) = true := by simp
          rw [(h.stays _).2 _ hentry]
          dsimp only at hfails ⊢
          rw [if_neg hfollowed] at hfails ⊢
          first
          | exact hfails
          | exact ihlinks hfails

theorem isDirectory (h : t.Lasts u) (hpath : t.isDirectory path) : u.isDirectory path := by
  obtain ⟨l, hl, hentry⟩ := isDirectory_iff.mp hpath
  exact isDirectory_iff.mpr ⟨l, h.locate_eq hl (by simp [hentry]), (h.stays l).1 hentry⟩

end Lasts

/-- A path that leads to the same entry leads to the same text. -/
theorem readText_eq_of_locate (ht : t.locate .target path = .ok l)
    (hu : u.locate .target path = .ok l) (h : u.entryAt? l = t.entryAt? l) :
    u.readText path = t.readText path := by
  rw [readText, readText, find, find, ht, hu]
  simp only [bind, Except.bind, h]

/-- Nothing below a directory has changed, and links there lead to what they led to. -/
structure Unchanged (t u : FileTree) (root : String) (l : Location) : Prop where
  lasts : t.Lasts u
  below : ∀ names, u.entryAt? (l ++ names) = t.entryAt? (l ++ names)
  links : ∀ names target, t.entryAt? (l ++ names) = some (.link target) →
    u.find (joinAll root names) = t.find (joinAll root names)

namespace Unchanged

theorem isReached_eq (h : Unchanged t u root l) (before names : List String) :
    u.isReached (l ++ before) names = t.isReached (l ++ before) names := by
  induction names generalizing before with
  | nil => rfl
  | cons name names ih =>
    rw [isReached, isReached, isDirectoryAt, isDirectoryAt, h.below, List.append_assoc, ih]

theorem isFileBelow_iff (h : Unchanged t u root l) :
    u.IsFileBelow root l names ↔ t.IsFileBelow root l names := by
  have hreached := h.isReached_eq [] names
  rw [List.append_nil] at hreached
  have hfile : u.IsFileAt (l ++ names) ↔ t.IsFileAt (l ++ names) := by
    simp only [IsFileAt, h.below]
  constructor
  · rintro ⟨hr, hf | ⟨⟨target, hlink⟩, hf⟩⟩
    · exact ⟨hreached ▸ hr, .inl (hfile.mp hf)⟩
    · rw [h.below] at hlink
      rw [isFile, h.links names target hlink] at hf
      exact ⟨hreached ▸ hr, .inr ⟨⟨target, hlink⟩, hf⟩⟩
  · rintro ⟨hr, hf | ⟨⟨target, hlink⟩, hf⟩⟩
    · exact ⟨hreached ▸ hr, .inl (hfile.mpr hf)⟩
    · refine ⟨hreached ▸ hr, .inr ⟨⟨target, h.below names ▸ hlink⟩, ?_⟩⟩
      rw [isFile, h.links names target hlink]
      exact hf

end Unchanged

end FileTree

namespace Build

open FileTree

variable {t u : FileTree} {l : Location} {root : String} {selection : Selection}
  {files : List Candidate} {asked : List Request}

/-- A source that could be read holds what it held where nothing has changed. -/
theorem IsSource.readText_eq {file : Candidate} {names : List String} {entry : Entry}
    {text : String} (ht : t.WellFormed) (h : Unchanged t u root l)
    (hl : t.entryAt? l = some .directory) (hsource : IsSource t root file names l entry)
    (hread : t.readText file.path = .ok text) : u.readText file.path = t.readText file.path := by
  obtain ⟨m, hm, content, modified, hfile, -⟩ := readText_eq_ok_iff.mp hread
  obtain ⟨hne, hnames, hentry, hreached⟩ := ht.of_mem_below hsource.below
  rcases isWalkedFile_eq_ok_true_iff.mp hsource.isFile with ⟨_, _, rfl⟩ | ⟨⟨target, rfl⟩, -⟩
  · -- The path of a file leads to it.
    obtain ⟨hcheck, way, hway⟩ := locate_eq_ok_iff.mp hm
    rw [hsource.path] at hcheck hway
    rw [Path.steps_joinAll hne hnames] at hway
    have hplace := ht.locate_joinAll hsource.leads hl hne hnames
      (fun a ha => hway.short a (List.mem_append_right _ ha) (hnames a ha).plain) hcheck hreached
      (.inl ⟨_, _, hentry⟩)
    rw [← hsource.path] at hplace
    obtain rfl := Except.ok.inj (hm.symm.trans hplace)
    exact readText_eq_of_locate hm (h.lasts.locate_eq hm (by simp [hfile])) (h.below _)
  · rw [FileTree.readText, FileTree.readText, hsource.path, h.links names target hentry]

end Build

end IdlCompiler
