/-
# Texts that are put into a tree

Putting a text into a file makes the directories above the file first.  Where the names of the
file lead down from a directory, it depends on the files and directories along these names only
whether this goes well.  Of texts that are put at different places, each is still there after
the others.

Main statements: `LeadsOn.accepts_iff`, when a text can be put; `HasRoomFor.puts`, what it does to
the tree; and `Carries.cons`, one text more.
-/
import IdlCompiler.Proofs.Additions

namespace IdlCompiler.FileTree

open IdlCompiler.Path (IsPlain)

variable {t u v w : FileTree} {d l : Location} {path text last : String}
  {names init : List String}

/-! ## Placements -/

/-- A text and the place where it belongs: the names that lead to a file from a directory. -/
structure Placement where
  base : Location
  names : List String
  text : String

namespace Placement

/-- The place of the file. -/
def place (p : Placement) : Location := p.base ++ p.names

/-- A directory between the base and the file. -/
def IsAbove (p : Placement) (l : Location) : Prop :=
  ∃ start, start <+: p.names ∧ start ≠ p.names ∧ l = p.base ++ start

theorem isAbove_concat_iff {p : Placement} (hnames : p.names = init ++ [last]) :
    p.IsAbove l ↔ ∃ start, start <+: init ∧ l = p.base ++ start := by
  unfold IsAbove
  rw [hnames]
  constructor
  · rintro ⟨start, hstart, hne, rfl⟩
    exact ⟨start, (prefix_concat_cases hstart).resolve_left hne, rfl⟩
  · rintro ⟨start, hstart, rfl⟩
    refine ⟨start, hstart.trans (List.prefix_append ..), fun heq => ?_, rfl⟩
    have hlength := hstart.length_le
    rw [heq, List.length_append, List.length_singleton] at hlength
    omega

end Placement

/-! ## Paths that accept a text -/

/-- A text can be written under a path once the directories above are made. -/
def Accepts (t : FileTree) (path : String) : Prop :=
  (t.makeDirectories (Path.parent path)).1 = .ok () ∧
    ∃ content u, (t.makeDirectories (Path.parent path)).2.writeFile path content = .ok u

/-- There is room for a file where the directories above have been made and no directory has
its name. -/
theorem LeadsOn.hasRoomFor_of_makeDirectories (ht : t.WellFormed)
    (h : t.LeadsOn path d (init ++ [last])) (hslash : Path.hasFinalSlash path = false)
    (hok : (t.makeDirectories (Path.parent path)).1 = .ok ()) {purpose : Purpose}
    (hl : (t.makeDirectories (Path.parent path)).2.locate purpose path = .ok l)
    (hfree : ¬ (t.makeDirectories (Path.parent path)).2.entryAt? l = some .directory) :
    t.HasRoomFor path d init last ∧ l = d ++ (init ++ [last]) := by
  have hgrows := makeDirectories_grows ht (Path.parent path)
  obtain ⟨hclear, hdirectory⟩ := (h.parent ht).of_makeDirectories_eq_ok ht hok
  have hcheck := (locate_eq_ok_iff.mp hl).1
  rw [(h.of_grows hgrows).locate_eq_ite (hgrows.changes.wellFormed ht) hcheck hslash hclear
    hdirectory] at hl
  split at hl
  · simp at hl
  · rename_i hshort
    obtain rfl := Except.ok.inj hl
    obtain ⟨hnames, hfiles⟩ := obstacle?_eq_none_iff.mp hclear
    refine ⟨⟨h, hcheck, hslash, ?_, by omega, fun hd => hfree ((hgrows.stays _).1 hd)⟩, rfl⟩
    exact obstacle?_eq_none_iff.mpr ⟨hnames, fun start hstart hne hfile =>
      hfiles start hstart hne (hgrows.isFileAt hfile)⟩

theorem LeadsOn.accepts_iff_hasRoomFor (ht : t.WellFormed)
    (h : t.LeadsOn path d (init ++ [last])) (hslash : Path.hasFinalSlash path = false) :
    t.Accepts path ↔ t.HasRoomFor path d init last := by
  constructor
  · rintro ⟨hok, content, u, hwrite⟩
    have hv := (makeDirectories_changes ht (Path.parent path)).wellFormed ht
    obtain ⟨l, hl, hadds, -⟩ := writeFile_adds hv hwrite
    refine (h.hasRoomFor_of_makeDirectories ht hslash hok hl fun hdirectory => ?_).1
    obtain ⟨-, hfree | ⟨_, _, hfree⟩, -⟩ := hadds.exists_eq_put <;> simp [hdirectory] at hfree
  · intro hroom
    obtain ⟨hok, hplace, hfree⟩ := hroom.locate_eq ht
    obtain ⟨u, hu⟩ := exists_writeFile_eq (hplace .making) hfree "".toUTF8
    exact ⟨hok, _, u, hu⟩

/-- **A text can be put below a directory if no name is too long, no file is in the way and no
directory has the name of the file.** -/
theorem LeadsOn.accepts_iff (ht : t.WellFormed) (h : t.LeadsOn path d names) (hne : names ≠ [])
    (hslash : Path.hasFinalSlash path = false) : t.Accepts path ↔
      checkPath path = .ok () ∧ (∀ a ∈ names, a.utf8ByteSize ≤ maxNameSize) ∧
        (∀ l, (Placement.mk d names "").IsAbove l → ¬ t.IsFileAt l) ∧
        t.entryAt? (d ++ names) ≠ some .directory := by
  obtain ⟨init, last, rfl⟩ := (List.eq_nil_or_concat' names).resolve_left hne
  rw [h.accepts_iff_hasRoomFor ht hslash]
  have habove (l : Location) := Placement.isAbove_concat_iff (p := ⟨d, init ++ [last], ""⟩) (l := l)
    rfl
  constructor
  · intro hroom
    obtain ⟨hshort, hfiles⟩ := obstacle?_eq_none_iff.mp hroom.clear
    refine ⟨hroom.check, List.forall_mem_append.mpr ⟨hshort, by simpa using hroom.short⟩,
      fun l hl => ?_, hroom.free⟩
    obtain ⟨start, hstart, rfl⟩ := (habove l).mp hl
    rcases eq_or_ne start [] with rfl | hne
    · rintro ⟨content, modified, hentry⟩
      simp [h.down.directory] at hentry
    · exact hfiles start hstart hne
  · rintro ⟨hcheck, hshort, hfiles, hfree⟩
    obtain ⟨hinit, hlast⟩ := List.forall_mem_append.mp hshort
    refine ⟨h, hcheck, hslash, obstacle?_eq_none_iff.mpr ⟨hinit, fun start hstart _ => ?_⟩,
      hlast last (by simp), hfree⟩
    exact hfiles _ ((habove _).mpr ⟨start, hstart, rfl⟩)

/-! ## What putting a text does -/

/-- A tree is another one with a text put at its place, and with directories above it. -/
structure Puts (t : FileTree) (p : Placement) (u : FileTree) : Prop where
  grows : Grows (fun _ => True) t u
  hasText : u.HasText p.place p.text
  directories : ∀ l, p.IsAbove l → u.entryAt? l = some .directory
  others : ∀ l, l ≠ p.place → ¬ p.IsAbove l → u.entryAt? l = t.entryAt? l

/-- Directories that are made for a text, and the text. -/
theorem Paves.puts (hpaves : t.Paves d init v) (hclear : t.obstacle? d init = none)
    (hgrows : Grows (fun _ => True) t v) (hadds : Grows (· = d ++ (init ++ [last])) v u)
    (htext : u.HasText (d ++ (init ++ [last])) text) : t.Puts ⟨d, init ++ [last], text⟩ u where
  grows := hgrows.trans (hadds.mono fun _ _ => trivial)
  hasText := htext
  directories l hl := by
    obtain ⟨start, hstart, rfl⟩ := (Placement.isAbove_concat_iff rfl).mp hl
    have hfree := obstacle?_of_prefix hclear hstart
    exact (hadds.stays _).1 (hpaves.made start hstart hfree)
  others l hne hl := by
    rw [hadds.entryAt?_eq hne]
    exact hpaves.kept l fun start hstart _ _ heq =>
      hl ((Placement.isAbove_concat_iff rfl).mpr ⟨start, hstart, heq⟩)

/-- A text that is written where there is room for it is put there. -/
theorem HasRoomFor.puts (ht : t.WellFormed) (h : t.HasRoomFor path d init last)
    (hwrite : (t.makeDirectories (Path.parent path)).2.writeFile path text.toUTF8 = .ok u) :
    t.Puts ⟨d, init ++ [last], text⟩ u ∧ u.locate .target path = .ok (d ++ (init ++ [last])) := by
  obtain ⟨v, hv, hpaves⟩ := h.makeDirectories_eq ht
  obtain ⟨-, hplace, -⟩ := h.locate_eq ht
  have hgrows := makeDirectories_grows ht (Path.parent path)
  rw [hv] at hwrite hplace hgrows
  obtain ⟨l, hl, hadds, hlocate, htext⟩ := writeFile_hasText (hgrows.changes.wellFormed ht) hwrite
  obtain rfl := Except.ok.inj (hl.symm.trans (hplace .making))
  exact ⟨hpaves.puts h.clear (hgrows.mono fun _ _ => trivial) (.single ⟨_, rfl, hadds⟩) htext,
    hlocate⟩

/-! ## Several texts -/

/-- In an area a tree is another one with texts put at their places, and else the same. -/
structure Carries (area : Location → Prop) (t : FileTree) (ps : List Placement) (u : FileTree) :
    Prop where
  hasText : ∀ p ∈ ps, u.HasText p.place p.text
  directories : ∀ p ∈ ps, ∀ l, p.IsAbove l → u.entryAt? l = some .directory
  others : ∀ l, area l → (∀ p ∈ ps, l ≠ p.place ∧ ¬ p.IsAbove l) → u.entryAt? l = t.entryAt? l

namespace Carries

variable {area : Location → Prop} {ps qs : List Placement} {p : Placement}

theorem nil (area : Location → Prop) (t : FileTree) : Carries area t [] t where
  hasText := by simp
  directories := by simp
  others _ _ _ := rfl

/-- **One more text leaves the others where they are**, unless it is put at the place of one of
them. -/
theorem cons (h : Carries area t ps u) (hput : u.Puts p v) (hnew : ∀ q ∈ ps, q.place ≠ p.place) :
    Carries area t (p :: ps) v where
  hasText := by
    refine List.forall_mem_cons.mpr ⟨hput.hasText, fun q hq => ?_⟩
    have hold := h.hasText q hq
    -- A file stays a file, so that it is not among the directories that are made.
    have hfile := hput.grows.isFileAt (isFileAt_of_hasText hold)
    have habove : ¬ p.IsAbove q.place := fun habove =>
      not_isFileAt_of_directory (hput.directories _ habove) hfile
    rwa [hasText_of_entryAt?_eq (hput.others _ (hnew q hq) habove)]
  directories := by
    refine List.forall_mem_cons.mpr ⟨hput.directories, fun q hq l hl => ?_⟩
    exact (hput.grows.stays l).1 (h.directories q hq l hl)
  others l hl hfree := by
    obtain ⟨⟨hne, habove⟩, hrest⟩ := List.forall_mem_cons.mp hfree
    rw [hput.others l hne habove, h.others l hl hrest]

/-- The texts are still there if nothing changes in the area. -/
theorem congr (h : Carries area t ps u) (hps : ∀ p ∈ ps, area p.place ∧ ∀ l, p.IsAbove l → area l)
    (heq : ∀ l, area l → v.entryAt? l = u.entryAt? l) : Carries area t ps v where
  hasText p hp := (hasText_of_entryAt?_eq (heq _ (hps p hp).1)).mpr (h.hasText p hp)
  directories p hp l hl := by
    rw [heq l ((hps p hp).2 l hl)]
    exact h.directories p hp l hl
  others l hl hfree := by rw [heq l hl, h.others l hl hfree]

/-- What stands at a place after texts have been put: a text, a directory above one, or what
stood there before. -/
theorem cases (h : Carries area t ps u) (hl : area l) :
    (∃ p ∈ ps, l = p.place ∧ u.HasText l p.text) ∨
      (∃ p ∈ ps, p.IsAbove l ∧ u.entryAt? l = some .directory) ∨
        (∀ p ∈ ps, l ≠ p.place ∧ ¬ p.IsAbove l) ∧ u.entryAt? l = t.entryAt? l := by
  by_cases hplace : ∃ p ∈ ps, l = p.place
  · obtain ⟨p, hp, rfl⟩ := hplace
    exact .inl ⟨p, hp, rfl, h.hasText p hp⟩
  by_cases habove : ∃ p ∈ ps, p.IsAbove l
  · obtain ⟨p, hp, habove⟩ := habove
    exact .inr (.inl ⟨p, hp, habove, h.directories p hp l habove⟩)
  · have hfree : ∀ p ∈ ps, l ≠ p.place ∧ ¬ p.IsAbove l := fun p hp =>
      ⟨fun heq => hplace ⟨p, hp, heq⟩, fun hl => habove ⟨p, hp, hl⟩⟩
    exact .inr (.inr ⟨hfree, h.others l hl hfree⟩)

/-- The path of a text leads to its place. -/
theorem locate_eq (hu : u.WellFormed) (h : Carries area t ps u) (hp : p ∈ ps)
    (hleads : u.LeadsOn path p.base p.names) (hne : p.names ≠ [])
    (hcheck : checkPath path = .ok ()) (hslash : Path.hasFinalSlash path = false)
    (hshort : ∀ a ∈ p.names, a.utf8ByteSize ≤ maxNameSize) (purpose : Purpose) :
    u.locate purpose path = .ok p.place := by
  obtain ⟨init, last, hnames⟩ := (List.eq_nil_or_concat' p.names).resolve_left hne
  have habove (start : List String) (hstart : start <+: init) :
      u.entryAt? (p.base ++ start) = some .directory :=
    h.directories p hp _ ((Placement.isAbove_concat_iff hnames).mpr ⟨start, hstart, rfl⟩)
  rw [hnames] at hleads hshort
  obtain ⟨hinit, hlast⟩ := List.forall_mem_append.mp hshort
  have hclear : u.obstacle? p.base init = none := obstacle?_eq_none_iff.mpr
    ⟨hinit, fun start hstart _ => not_isFileAt_of_directory (habove start hstart)⟩
  rw [hleads.locate_eq hu hcheck hslash hclear (habove init List.prefix_rfl) (hlast last (by simp)),
    Placement.place, hnames]

end Carries

end IdlCompiler.FileTree
