/-
# Making directories along a path

A path that leads to a directory may lead on down from there, along names that nothing or
directories stand at.  Making directories along it makes those that are missing, one below the
other, until something is in the way: a file, or a name that is too long.  What is in the way
decides about the answer, and not which of the directories are there already.

Main statements: `WellFormed.makeDirectories_eq_of_isDirectory`, what is there is not made again,
and `LeadsOn.makeDirectories_eq`, what is made and what is answered.
-/
import IdlCompiler.Proofs.Parents
import IdlCompiler.Proofs.Walks
import Mathlib.Data.List.Perm.Subperm
import Mathlib.Data.String.Basic

namespace IdlCompiler.FileTree

open IdlCompiler.Path (IsPlain IsName walked)

variable {t u : FileTree} {d l : Location} {path p name : String} {before names rest : List String}
  {way : List Location}

/-! ## Directories that are there -/

theorem find_eq_ok_iff {entry : Entry} :
    t.find path = .ok entry ↔ ∃ l, t.locate .target path = .ok l ∧ t.entryAt? l = some entry := by
  unfold FileTree.find
  cases t.locate .target path with
  | error e => simp [bind, Except.bind]
  | ok l => cases hl : t.entryAt? l <;> simp [bind, Except.bind, hl]

theorem isDirectory_iff : t.isDirectory path ↔
    ∃ l, t.locate .target path = .ok l ∧ t.entryAt? l = some .directory := by
  rw [← find_eq_ok_iff, FileTree.isDirectory]
  cases t.find path with
  | error e => simp
  | ok entry => cases entry <;> simp

theorem makeAfter_of_error {e : Error} (h : t.makeDirectory path = .error e) (he : e ≠ .notFound)
    (above : Unit → Except Error Unit × FileTree) :
    t.makeAfter path above = (if t.isDirectory path then .ok () else .error e, t) := by
  unfold makeAfter
  simp only [h]
  cases e <;> simp_all

theorem locateParent_eq_map (hcheck : checkPath path = .ok ()) : t.locateParent path =
    (t.resolve .target ((walked path).dropLast ++ [""])).map fun l =>
      (l, (walked path).getLast?) := by
  rw [locateParent, hcheck, ← walked]
  cases h : t.resolve .target ((walked path).dropLast ++ [""]) <;>
    simp [h, bind, Except.bind, Except.map, pure, Except.pure]

theorem followWithin_empty {n : Nat} {purpose : Purpose} :
    t.followWithin purpose n l [""] = .ok l := by
  rw [followWithin_idle (.inl rfl), followWithin_nil]

/-- A directory that is there is not made again. -/
theorem WellFormed.exists_makeDirectory_eq_error (ht : t.WellFormed) (h : t.isDirectory path) :
    ∃ e, t.makeDirectory path = .error e ∧ e ≠ .notFound := by
  obtain ⟨l, hl, hdirectory⟩ := isDirectory_iff.mp h
  obtain ⟨hcheck, way, hway⟩ := locate_eq_ok_iff.mp hl
  have hwalked := ht.leads_walked hway
  rcases List.eq_nil_or_concat' (walked path) with hnil | ⟨init, name, hnames⟩
  · have hparent : t.locateParent path = .ok ([], none) := by
      rw [locateParent_eq_map hcheck, hnil]
      simp [resolve, followWithin_empty, Except.map]
    exact ⟨.alreadyExists, by simp [makeDirectory, hparent, bind, Except.bind], by simp⟩
  · rw [hnames] at hwalked
    obtain ⟨way', above, hinit, habove⟩ :=
      ht.exists_leads_of_append hwalked (fun _ => hdirectory) (entryAt?_nil t)
    obtain ⟨m, hm⟩ := hinit.followWithin_append habove
    have hparent : t.locateParent path = .ok (above, some name) := by
      rw [locateParent_eq_map hcheck, hnames]
      simp [resolve, hm .target [""] (by simp) (by simp), followWithin_empty, Except.map]
    by_cases hdots : name = "." ∨ name = ".."
    · exact ⟨.alreadyExists, by simp [makeDirectory, hparent, bind, Except.bind, hdots], by simp⟩
    by_cases hlong : maxNameSize < name.utf8ByteSize
    · exact ⟨.nameTooLong,
        by simp [makeDirectory, hparent, bind, Except.bind, hdots, hlong], by simp⟩
    cases hentry : t.entryAt? (above ++ [name]) with
    | some entry =>
      exact ⟨.alreadyExists,
        by simp [makeDirectory, hparent, bind, Except.bind, hdots, hlong, hentry], by simp⟩
    | none =>
      have plain : IsPlain name := ⟨ne_empty_of_locateParent hparent, by simpa using hdots⟩
      have hlast := (hm .target [name] (by simp) (by simp)).symm.trans hwalked.followWithin_eq
      rw [followWithin_plain plain, if_neg (by simp), if_neg hlong, hentry] at hlast
      simp only [List.isEmpty_nil, if_pos, Except.ok.injEq] at hlast
      simp [← hlast, hentry] at hdirectory

/-- Making directories where a directory is does nothing. -/
theorem WellFormed.makeDirectories_eq_of_isDirectory (ht : t.WellFormed) (h : t.isDirectory path) :
    t.makeDirectories path = (.ok (), t) := by
  obtain ⟨e, he, hne⟩ := ht.exists_makeDirectory_eq_error h
  unfold makeDirectories
  split
  · rfl
  · cases Path.above path with
    | nil => rw [makeWithAbove, makeAfter_of_error he hne, if_pos h]
    | cons next above => rw [makeWithAbove, makeAfter_of_error he hne, if_pos h]

/-- Directories are made after the directories above them. -/
theorem makeDirectories_eq_makeAfter (h : path ≠ "") : t.makeDirectories path =
    t.makeAfter path fun _ => t.makeDirectories (Path.parent path) := by
  unfold makeDirectories
  rw [if_neg h, Path.above_eq_parent]
  split <;> rfl

/-! ## What is in the way -/

/-- What keeps directories from being made along names, one below the other. -/
def obstacle? (t : FileTree) : Location → List String → Option Error
  | _, [] => none
  | l, name :: rest =>
    if maxNameSize < name.utf8ByteSize then some .nameTooLong
    else match t.entryAt? (l ++ [name]) with
      | some (.file ..) => some (if rest = [] then .alreadyExists else .notADirectory)
      | _ => obstacle? t (l ++ [name]) rest

/-- No link is in the way of names that lead down. -/
structure LeadsDown (t : FileTree) (d : Location) (names : List String) : Prop where
  directory : t.entryAt? d = some .directory
  plain : ∀ a ∈ names, IsPlain a
  noLink : ∀ start, start <+: names → ∀ target, t.entryAt? (d ++ start) ≠ some (.link target)

/-- Directories are made along names as far as nothing is in the way. -/
structure Paves (t : FileTree) (d : Location) (names : List String) (u : FileTree) : Prop where
  made : ∀ start, start <+: names → t.obstacle? d start = none →
    u.entryAt? (d ++ start) = some .directory
  kept : ∀ l, (∀ start, start <+: names → t.obstacle? d start = none →
    t.entryAt? l = none → l ≠ d ++ start) → u.entryAt? l = t.entryAt? l

theorem LeadsDown.of_prefix {start : List String} (h : t.LeadsDown d names)
    (hstart : start <+: names) : t.LeadsDown d start where
  directory := h.directory
  plain a ha := h.plain a (hstart.subset ha)
  noLink s hs := h.noLink s (hs.trans hstart)

theorem obstacle?_append : t.obstacle? d (names ++ rest) =
    match t.obstacle? d names with
    | none => t.obstacle? (d ++ names) rest
    | some e => some (if e = .alreadyExists ∧ rest ≠ [] then .notADirectory else e) := by
  induction names generalizing d with
  | nil => simp [obstacle?]
  | cons name names ih =>
    simp only [List.cons_append, obstacle?]
    split
    · simp
    · split
      · cases names <;> cases rest <;> simp
      · rw [ih]
        simp

theorem obstacle?_of_prefix {start : List String} (h : t.obstacle? d names = none)
    (hstart : start <+: names) : t.obstacle? d start = none := by
  obtain ⟨more, rfl⟩ := hstart
  rw [obstacle?_append] at h
  cases hs : t.obstacle? d start with
  | none => rfl
  | some e => simp [hs] at h

theorem short_of_obstacle? (h : t.obstacle? d names = none) :
    ∀ a ∈ names, a.utf8ByteSize ≤ maxNameSize := by
  induction names generalizing d with
  | nil => simp
  | cons name rest ih =>
    rw [obstacle?] at h
    split at h
    · simp at h
    · rename_i hshort
      split at h
      · simp at h
      · exact List.forall_mem_cons.mpr ⟨by omega, ih h⟩

/-- Nothing is in the way exactly if no name is too long and no file stands at one of the names. -/
theorem obstacle?_eq_none_iff : t.obstacle? d names = none ↔
    (∀ a ∈ names, a.utf8ByteSize ≤ maxNameSize) ∧
      ∀ start, start <+: names → start ≠ [] → ¬ t.IsFileAt (d ++ start) := by
  constructor
  · intro h
    refine ⟨short_of_obstacle? h, fun start hstart hne hfile => ?_⟩
    obtain ⟨content, modified, hentry⟩ := hfile
    obtain ⟨before, name, rfl⟩ := (List.eq_nil_or_concat' start).resolve_left hne
    have hclear := obstacle?_of_prefix h hstart
    have hbefore := obstacle?_of_prefix hclear (List.prefix_append ..)
    simp only [obstacle?_append, hbefore, obstacle?, List.append_assoc, hentry] at hclear
    split_ifs at hclear
  · rintro ⟨hshort, hfiles⟩
    induction names generalizing d with
    | nil => rfl
    | cons name rest ih =>
      obtain ⟨hname, hrest⟩ := List.forall_mem_cons.mp hshort
      rw [obstacle?, if_neg (by omega)]
      have hfirst := hfiles [name] (List.cons_prefix_cons.mpr ⟨rfl, List.nil_prefix⟩) (by simp)
      have hclear : t.obstacle? (d ++ [name]) rest = none := by
        refine ih hrest fun start hstart _ => ?_
        rw [List.append_assoc]
        exact hfiles (name :: start) (List.cons_prefix_cons.mpr ⟨rfl, hstart⟩) (by simp)
      split
      · exact absurd ⟨_, _, ‹_›⟩ hfirst
      · exact hclear

theorem obstacle?_ne_notFound : t.obstacle? d names ≠ some .notFound := by
  induction names generalizing d with
  | nil => simp [obstacle?]
  | cons name rest ih =>
    rw [obstacle?]
    split
    · simp
    · split
      · split <;> simp
      · exact ih

/-- The names and the files among what stands at them are all that can be in the way. -/
theorem obstacle?_congr {d' : Location} (h : ∀ start, start <+: names → start ≠ [] →
    (t.IsFileAt (d ++ start) ↔ u.IsFileAt (d' ++ start))) :
    t.obstacle? d names = u.obstacle? d' names := by
  induction names generalizing d d' with
  | nil => rfl
  | cons name rest ih =>
    have hname := h [name] (List.cons_prefix_cons.mpr ⟨rfl, List.nil_prefix⟩) (by simp)
    have hrest : t.obstacle? (d ++ [name]) rest = u.obstacle? (d' ++ [name]) rest := by
      refine ih fun start hstart _ => ?_
      simpa using h (name :: start) (List.cons_prefix_cons.mpr ⟨rfl, hstart⟩) (by simp)
    rw [obstacle?, obstacle?, hrest]
    congr 1
    unfold IsFileAt at hname
    cases ht : t.entryAt? (d ++ [name]) with
    | none => cases hu : u.entryAt? (d' ++ [name]) with
      | none => rfl
      | some entry => cases entry <;> simp_all
    | some entry => cases hu : u.entryAt? (d' ++ [name]) with
      | none => cases entry <;> simp_all
      | some entry' => cases entry <;> cases entry' <;> simp_all

/-- Nothing is below a place where nothing is. -/
theorem WellFormed.entryAt?_append_of_none (ht : t.WellFormed) (hl : t.entryAt? l = none)
    (names : List String) : t.entryAt? (l ++ names) = none := by
  cases hentry : t.entryAt? (l ++ names) with
  | none => rfl
  | some entry =>
    have heq := ht.eq_of_isPrefix (by simp [hl]) hentry (List.prefix_append l names)
    rw [heq, hl] at hentry
    simp at hentry

theorem WellFormed.obstacle?_of_none (ht : t.WellFormed) (hl : t.entryAt? l = none) :
    t.obstacle? l names = none ∨ t.obstacle? l names = some .nameTooLong := by
  induction names generalizing l with
  | nil => exact .inl rfl
  | cons name rest ih =>
    have hname := ht.entryAt?_append_of_none hl [name]
    rw [obstacle?, hname]
    split
    · exact .inr rfl
    · exact ih hname

theorem LeadsDown.of_cons (h : t.LeadsDown d (name :: rest))
    (hname : t.entryAt? (d ++ [name]) = some .directory) : t.LeadsDown (d ++ [name]) rest where
  directory := hname
  plain a ha := h.plain a (List.mem_cons_of_mem _ ha)
  noLink start hstart target := by
    rw [List.append_assoc]
    exact h.noLink _ (List.cons_prefix_cons.mpr ⟨rfl, hstart⟩) target

/-- How far names lead: to a directory, to where nothing is, or to an obstacle. -/
inductive Walked (t : FileTree) (d : Location) (names : List String) :
    Except Error Location → Prop
  | through (clear : t.obstacle? d names = none)
      (directory : t.entryAt? (d ++ names) = some .directory) : Walked t d names (.ok (d ++ names))
  | missing (clear : t.obstacle? d names = none ∨ t.obstacle? d names = some .nameTooLong)
      (vacant : t.entryAt? (d ++ names) = none) : Walked t d names (.error .notFound)
  | stopped {e : Error} (obstacle : t.obstacle? d names = some e)
      (there : ∀ start, start <+: names → t.obstacle? d start = none →
        t.entryAt? (d ++ start) = some .directory) :
      Walked t d names (.error (if e = .alreadyExists then .notADirectory else e))

/-- The first name is in the way. -/
theorem Walked.stopped_first {e e' : Error} (hd : t.entryAt? d = some .directory)
    (hfirst : t.obstacle? d [name] = some e') (hobstacle : t.obstacle? d (name :: rest) = some e) :
    t.Walked d (name :: rest) (.error (if e = .alreadyExists then .notADirectory else e)) := by
  refine .stopped hobstacle fun start hstart hclear => ?_
  cases start with
  | nil => simpa using hd
  | cons a start =>
    obtain ⟨rfl, -⟩ := List.cons_prefix_cons.mp hstart
    have := obstacle?_of_prefix hclear (List.cons_prefix_cons.mpr ⟨rfl, List.nil_prefix⟩)
    simp [hfirst] at this

/-- The first name leads to a directory, and the others lead on from there. -/
theorem Walked.cons {result : Except Error Location} (hd : t.entryAt? d = some .directory)
    (hname : t.entryAt? (d ++ [name]) = some .directory)
    (hshort : ¬ maxNameSize < name.utf8ByteSize) (h : t.Walked (d ++ [name]) rest result) :
    t.Walked d (name :: rest) result := by
  have hobstacle (more : List String) :
      t.obstacle? d (name :: more) = t.obstacle? (d ++ [name]) more := by
    rw [obstacle?, if_neg hshort, hname]
  have hend : d ++ name :: rest = d ++ [name] ++ rest := List.append_cons ..
  cases h with
  | through clear directory =>
    rw [← hend] at directory ⊢
    exact .through (hobstacle rest ▸ clear) directory
  | missing clear vacant => exact .missing (hobstacle rest ▸ clear) (hend ▸ vacant)
  | stopped obstacle there =>
    refine .stopped (hobstacle rest ▸ obstacle) fun start hstart hclear => ?_
    cases start with
    | nil => simpa using hd
    | cons a start =>
      obtain ⟨rfl, hrest⟩ := List.cons_prefix_cons.mp hstart
      rw [List.append_cons]
      exact there start hrest (hobstacle start ▸ hclear)

theorem LeadsDown.walked (ht : t.WellFormed) (h : t.LeadsDown d names) (n : Nat) :
    t.Walked d names (t.followWithin .target n d (names ++ [""])) := by
  induction names generalizing d with
  | nil =>
    rw [List.nil_append, followWithin_empty]
    have hwalked : t.Walked d [] (.ok (d ++ [])) := .through rfl (by simpa using h.directory)
    rwa [List.append_nil] at hwalked
  | cons name rest ih =>
    rw [List.cons_append, followWithin_plain (h.plain name (by simp)), if_neg (by simp)]
    by_cases hlong : maxNameSize < name.utf8ByteSize
    · rw [if_pos hlong]
      have hobstacle (more : List String) : t.obstacle? d (name :: more) = some .nameTooLong := by
        rw [obstacle?, if_pos hlong]
      simpa using Walked.stopped_first h.directory (hobstacle []) (hobstacle rest)
    rw [if_neg hlong]
    cases hentry : t.entryAt? (d ++ [name]) with
    | none =>
      rw [if_neg (by simp)]
      have hobstacle : t.obstacle? d (name :: rest) = t.obstacle? (d ++ [name]) rest := by
        rw [obstacle?, if_neg hlong, hentry]
      refine .missing (hobstacle ▸ ht.obstacle?_of_none hentry) ?_
      rw [List.append_cons]
      exact ht.entryAt?_append_of_none hentry rest
    | some entry =>
      cases entry with
      | file content modified =>
        rw [if_neg (by simp)]
        have hobstacle (more : List String) : t.obstacle? d (name :: more) =
            some (if more = [] then .alreadyExists else .notADirectory) := by
          rw [obstacle?, if_neg hlong, hentry]
        have hstopped := Walked.stopped_first h.directory (hobstacle []) (hobstacle rest)
        by_cases hrest : rest = [] <;> simpa [hrest] using hstopped
      | link target =>
        exact absurd hentry
          (h.noLink [name] (List.cons_prefix_cons.mpr ⟨rfl, List.nil_prefix⟩) target)
      | directory => exact .cons h.directory hentry hlong (ih (h.of_cons hentry))

/-- Names that nothing is in the way of lead to a directory that is there. -/
theorem LeadsDown.followWithin_eq (ht : t.WellFormed) (h : t.LeadsDown d names)
    (hclear : t.obstacle? d names = none) (hdirectory : t.entryAt? (d ++ names) = some .directory)
    (n : Nat) : t.followWithin .target n d (names ++ [""]) = .ok (d ++ names) := by
  have hcases := h.walked ht n
  generalize t.followWithin .target n d (names ++ [""]) = result at hcases ⊢
  cases hcases with
  | missing _ vacant => simp [hdirectory] at vacant
  | stopped obstacle => simp [hclear] at obstacle
  | through => rfl

/-! ## Directories below a directory -/

/-- A path leads to a directory and down from there. -/
structure LeadsOn (t : FileTree) (path : String) (d : Location) (names : List String) : Prop where
  leads : ∃ before way, walked path = before ++ names ∧ t.Leads .target maxLinks [] before way d
  down : t.LeadsDown d names

theorem LeadsOn.exists_follow (h : t.LeadsOn path d names) : ∃ before m,
    walked path = before ++ names ∧ ∀ (q : Purpose) (rest : List String), rest ≠ [] →
      (q = .making → rest ≠ [""]) →
        t.followWithin q maxLinks [] (before ++ rest) = t.followWithin q m d rest := by
  obtain ⟨before, way, hwalked, hway⟩ := h.leads
  obtain ⟨m, hm⟩ := hway.followWithin_append h.down.directory
  exact ⟨before, m, hwalked, hm⟩

/-- Where the directory stands that the last name of a path stands in. -/
theorem LeadsOn.locateParent_eq (h : t.LeadsOn path d (names ++ [name]))
    (hcheck : checkPath path = .ok ()) : ∃ m, t.locateParent path =
      (t.followWithin .target m d (names ++ [""])).map fun l => (l, some name) := by
  obtain ⟨before, m, hwalked, hm⟩ := h.exists_follow
  rw [← List.append_assoc] at hwalked
  refine ⟨m, ?_⟩
  rw [locateParent_eq_map hcheck, hwalked, List.dropLast_concat, List.getLast?_concat, resolve,
    List.append_assoc, hm .target _ (by simp) (by simp)]

/-- A path leads to a directory if nothing is in the way of its names and all of them are there. -/
theorem LeadsOn.isDirectory_iff (ht : t.WellFormed) (h : t.LeadsOn path d names)
    (hcheck : checkPath path = .ok ()) : t.isDirectory path ↔
      t.obstacle? d names = none ∧ t.entryAt? (d ++ names) = some .directory := by
  obtain ⟨before, m, hwalked, hm⟩ := h.exists_follow
  have hfollow := hm .target (names ++ [""]) (by simp) (by simp)
  rw [← List.append_assoc, ← hwalked] at hfollow
  constructor
  · intro hdirectory
    have hcases := h.down.walked ht m
    rw [← hfollow] at hcases
    obtain ⟨l, hl, hentry⟩ := FileTree.isDirectory_iff.mp hdirectory
    obtain ⟨-, way, hway⟩ := locate_eq_ok_iff.mp hl
    obtain ⟨m', hm'⟩ := (ht.leads_walked hway).followWithin_append hentry
    rw [hm' .target [""] (by simp) (by simp), followWithin_empty] at hcases
    cases hcases with
    | through clear directory => exact ⟨clear, directory⟩
  · rintro ⟨hclear, hentry⟩
    obtain ⟨way, hway⟩ :=
      exists_leads_of_followWithin (hfollow.trans (h.down.followWithin_eq ht hclear hentry m))
    refine FileTree.isDirectory_iff.mpr ⟨_, locate_eq_ok_iff.mpr ⟨hcheck, ?_⟩, hentry⟩
    rw [Path.steps_eq]
    split
    · exact ⟨way, hway⟩
    · rw [List.append_nil]
      exact ⟨way, (ht.directory_of_leads hway (entryAt?_nil t)).1⟩

/-- A directory is made in a directory that is there. -/
theorem LeadsOn.makeDirectory_eq (ht : t.WellFormed) (h : t.LeadsOn path d (names ++ [name]))
    (hcheck : checkPath path = .ok ()) (hclear : t.obstacle? d names = none)
    (hdirectory : t.entryAt? (d ++ names) = some .directory) : t.makeDirectory path =
      match t.obstacle? (d ++ names) [name] with
      | some e => .error e
      | none => match t.entryAt? (d ++ names ++ [name]) with
        | none => .ok (t.put (d ++ names ++ [name]) .directory)
        | some _ => .error .alreadyExists := by
  obtain ⟨m, hparent⟩ := h.locateParent_eq hcheck
  have hdown := h.down.of_prefix (List.prefix_append names [name])
  rw [hdown.followWithin_eq ht hclear hdirectory] at hparent
  have plain := h.down.plain name (by simp)
  simp only [makeDirectory, hparent, Except.map, bind, Except.bind, obstacle?]
  rw [if_neg (by simp [plain.2.1, plain.2.2])]
  by_cases hlong : maxNameSize < name.utf8ByteSize
  · simp [hlong]
  · simp only [if_neg hlong]
    cases hentry : t.entryAt? (d ++ names ++ [name]) with
    | none => rfl
    | some entry => cases entry <;> simp

/-- What is above an entry is a directory. -/
theorem WellFormed.directory_of_isPrefix (ht : t.WellFormed) (h : l <+: d) {entry : Entry}
    (hd : t.entryAt? d = some entry) (hne : l ≠ d) : t.entryAt? l = some .directory := by
  by_contra hl
  exact hne (ht.eq_of_isPrefix hl hd h).symm

theorem prefix_concat_cases {start : List String} (h : start <+: names ++ [name]) :
    start = names ++ [name] ∨ start <+: names := by
  rwa [List.prefix_concat_iff] at h

theorem Paves.of_obstacle {e : Error} (ht : t.WellFormed)
    (hdirectory : t.entryAt? (d ++ names) = some .directory)
    (hobstacle : t.obstacle? d (names ++ [name]) = some e) : t.Paves d (names ++ [name]) t where
  made start hstart hclear := by
    rcases prefix_concat_cases hstart with rfl | hstart
    · simp [hobstacle] at hclear
    · by_cases hall : d ++ start = d ++ names
      · rw [hall, hdirectory]
      · have hprefix : d ++ start <+: d ++ names := (List.prefix_append_right_inj d).mpr hstart
        exact ht.directory_of_isPrefix hprefix hdirectory hall
  kept _ _ := rfl

/-- Makes a directory; one that is there already is as good as one made now. -/
def makeAgain (t : FileTree) (path : String) : Except Error Unit × FileTree :=
  match t.makeDirectory path with
  | .ok u => (.ok (), u)
  | .error e => (if t.isDirectory path then .ok () else .error e, t)

/-- The answer where something may be in the way. -/
def answerTo : Option Error → Except Error Unit
  | none => .ok ()
  | some e => .error e

/-- The last step of making directories, in a directory that is there. -/
theorem LeadsOn.makeAgain_eq (ht : t.WellFormed) (h : t.LeadsOn path d (names ++ [name]))
    (hcheck : checkPath path = .ok ()) (hclear : t.obstacle? d names = none)
    (hdirectory : t.entryAt? (d ++ names) = some .directory) : ∃ u,
    t.makeAgain path = (answerTo (t.obstacle? d (names ++ [name])), u) ∧
      t.Paves d (names ++ [name]) u := by
  have hobstacle : t.obstacle? d (names ++ [name]) = t.obstacle? (d ++ names) [name] := by
    rw [obstacle?_append, hclear]
  rw [makeAgain, h.makeDirectory_eq ht hcheck hclear hdirectory, ← hobstacle]
  have hpresent := h.isDirectory_iff ht hcheck
  cases hlast : t.obstacle? d (names ++ [name]) with
  | some e =>
    have hmissing : t.isDirectory path = false := by simpa [hlast] using hpresent
    exact ⟨t, by simp [hmissing, answerTo], .of_obstacle ht hdirectory hlast⟩
  | none =>
    have hthere (start : List String) (hstart : start <+: names) :
        t.entryAt? (d ++ start) = some .directory := by
      by_cases hall : d ++ start = d ++ names
      · rw [hall, hdirectory]
      · have hprefix : d ++ start <+: d ++ names := (List.prefix_append_right_inj d).mpr hstart
        exact ht.directory_of_isPrefix hprefix hdirectory hall
    rw [← List.append_assoc] at hpresent
    cases hentry : t.entryAt? (d ++ names ++ [name]) with
    | none =>
      refine ⟨_, rfl, fun start hstart _ => ?_, fun l hl => ?_⟩
      · rw [entryAt?_put t (by simp)]
        rcases prefix_concat_cases hstart with rfl | hstart
        · rw [if_pos (List.append_assoc ..).symm]
        · split
          · rfl
          · exact hthere start hstart
      · rw [entryAt?_put t (by simp), if_neg]
        rintro rfl
        exact hl _ List.prefix_rfl hlast hentry (List.append_assoc ..)
    | some entry =>
      have hdir : entry = .directory := by
        cases entry with
        | directory => rfl
        | link target =>
          exact absurd (List.append_assoc d names [name] ▸ hentry)
            (h.down.noLink _ List.prefix_rfl target)
        | file content modified =>
          have hplain := hobstacle ▸ hlast
          rw [obstacle?, hentry] at hplain
          split at hplain <;> simp at hplain
      subst hdir
      have hpath : t.isDirectory path = true := hpresent.mpr ⟨hlast, hentry⟩
      refine ⟨t, by simp [hpath, answerTo], fun start hstart _ => ?_, fun _ _ => rfl⟩
      rcases prefix_concat_cases hstart with rfl | hstart
      · rw [← List.append_assoc, hentry]
      · exact hthere start hstart

theorem makeAfter_eq (t : FileTree) (path : String)
    (above : Unit → Except Error Unit × FileTree) : t.makeAfter path above =
      match t.makeDirectory path with
      | .error .notFound => match above () with
        | (.ok (), u) => u.makeAgain path
        | failed => failed
      | _ => t.makeAgain path := rfl

theorem makeAfter_eq_makeAgain (h : t.makeDirectory path ≠ .error .notFound)
    (above : Unit → Except Error Unit × FileTree) : t.makeAfter path above = t.makeAgain path := by
  rw [makeAfter_eq]
  split
  · contradiction
  · rfl

theorem LeadsDown.of_stays (h : t.LeadsDown d names) (hstays : t.Stays u d)
    (hlinks : u.HasLinksOf t) : u.LeadsDown d names where
  directory := hstays.1 h.directory
  plain := h.plain
  noLink start hstart target hlink := h.noLink start hstart target (hlinks _ target hlink)

/-- A path leads on where directories and links stay and no links are made. -/
theorem LeadsOn.of_stays (h : t.LeadsOn path d names) (hstays : ∀ m, t.Stays u m)
    (hlinks : u.HasLinksOf t) : u.LeadsOn path d names where
  leads := by
    obtain ⟨before, way, hwalked, hway⟩ := h.leads
    exact ⟨before, way, hwalked,
      hway.mono_of_directory h.down.directory fun m _ => hstays m⟩
  down := h.down.of_stays (hstays d) hlinks

theorem LeadsOn.of_grows {area : Location → Prop} (h : t.LeadsOn path d names)
    (hgrows : Grows area t u) : u.LeadsOn path d names :=
  h.of_stays hgrows.stays hgrows.changes.hasLinksOf

theorem Paves.isFileAt_iff (h : t.Paves d names u) (l : Location) :
    u.IsFileAt l ↔ t.IsFileAt l := by
  unfold IsFileAt
  by_cases hl : ∃ start, start <+: names ∧ t.obstacle? d start = none ∧
      t.entryAt? l = none ∧ l = d ++ start
  · obtain ⟨start, hstart, hclear, hnone, rfl⟩ := hl
    simp [h.made start hstart hclear, hnone]
  · push Not at hl
    rw [h.kept l hl]

theorem Paves.obstacle?_eq (h : t.Paves d names u) (l : Location) (more : List String) :
    u.obstacle? l more = t.obstacle? l more :=
  obstacle?_congr fun _ _ _ => h.isFileAt_iff _

/-- Directories are made along names and then on from there. -/
theorem Paves.concat {v : FileTree} (h : t.Paves d names u)
    (h' : u.Paves d (names ++ [name]) v) : t.Paves d (names ++ [name]) v where
  made start hstart hclear := h'.made start hstart (h.obstacle?_eq d start ▸ hclear)
  kept l hl := by
    have hlu : u.entryAt? l = t.entryAt? l :=
      h.kept l fun start hstart => hl start (hstart.trans (List.prefix_append names [name]))
    rw [← hlu]
    refine h'.kept l fun start hstart hclear hnone => hl start hstart ?_ (hlu ▸ hnone)
    rw [← h.obstacle?_eq, hclear]

/-- Directories that are made before an obstacle are all that are made. -/
theorem Paves.of_obstacle_before {e : Error} (h : t.Paves d names u)
    (hobstacle : t.obstacle? d (names ++ [name]) = some e) : t.Paves d (names ++ [name]) u where
  made start hstart hclear := by
    rcases prefix_concat_cases hstart with rfl | hstart
    · simp [hobstacle] at hclear
    · exact h.made start hstart hclear
  kept l hl := h.kept l fun start hstart =>
    hl start (hstart.trans (List.prefix_append names [name]))

/-- Making directories along a path, after those above have been made. -/
theorem LeadsOn.makeAfter_eq {area : Location → Prop} (ht : t.WellFormed)
    (h : t.LeadsOn path d (names ++ [name])) (hcheck : checkPath path = .ok ())
    (hgrows : Grows area t u) (hpaves : t.Paves d names u) : ∃ v,
      (t.makeAfter path fun _ => (answerTo (t.obstacle? d names), u)) =
        (answerTo (t.obstacle? d (names ++ [name])), v) ∧ t.Paves d (names ++ [name]) v := by
  obtain ⟨m, hparent⟩ := h.locateParent_eq hcheck
  have hcases := (h.down.of_prefix (List.prefix_append names [name])).walked ht m
  generalize t.followWithin .target m d (names ++ [""]) = result at hparent hcases
  cases hcases with
  | through clear directory =>
    rw [makeAfter_eq_makeAgain]
    · exact h.makeAgain_eq ht hcheck clear directory
    · rw [h.makeDirectory_eq ht hcheck clear directory]
      have hne : t.obstacle? (d ++ names) [name] ≠ some .notFound := obstacle?_ne_notFound
      split
      · simp_all
      · split <;> simp
  | missing clear vacant =>
    have hmissing : t.makeDirectory path = .error .notFound := by
      simp [makeDirectory, hparent, Except.map, bind, Except.bind]
    rw [FileTree.makeAfter_eq, hmissing]
    rcases clear with clear | clear
    · have hdirectory := hpaves.made names List.prefix_rfl clear
      obtain ⟨v, hv, hmade⟩ := (h.of_grows hgrows).makeAgain_eq (hgrows.changes.wellFormed ht)
        hcheck ((hpaves.obstacle?_eq d names).trans clear) hdirectory
      refine ⟨v, ?_, hpaves.concat hmade⟩
      rw [clear, ← hpaves.obstacle?_eq, ← hv]
      rfl
    · have hobstacle : t.obstacle? d (names ++ [name]) = some .nameTooLong := by
        rw [obstacle?_append, clear]
        rfl
      exact ⟨u, by rw [clear, hobstacle]; rfl, hpaves.of_obstacle_before hobstacle⟩
  | @stopped e obstacle there =>
    have hobstacle : t.obstacle? d (names ++ [name]) =
        some (if e = .alreadyExists then .notADirectory else e) := by
      rw [obstacle?_append, obstacle]
      simp
    have hfails : t.makeDirectory path =
        .error (if e = .alreadyExists then .notADirectory else e) := by
      simp [makeDirectory, hparent, Except.map, bind, Except.bind]
    have hne : t.obstacle? d (names ++ [name]) ≠ some .notFound := obstacle?_ne_notFound
    have hmissing : t.isDirectory path = false := by
      simpa [hobstacle] using h.isDirectory_iff ht hcheck
    rw [makeAfter_eq_makeAgain (by rw [hfails]; simpa [hobstacle] using hne)]
    refine ⟨t, by rw [makeAgain, hfails, hobstacle, hmissing]; rfl, fun start hstart hclear => ?_,
      fun _ _ => rfl⟩
    rcases prefix_concat_cases hstart with rfl | hstart
    · simp [hobstacle] at hclear
    · exact there start hstart hclear

theorem LeadsDown.paves_nil (h : t.LeadsDown d []) : t.Paves d [] t where
  made start hstart _ := by
    rw [List.prefix_nil.mp hstart, List.append_nil]
    exact h.directory
  kept _ _ := rfl

theorem followWithin_of_forall_isIdle {n : Nat} {purpose : Purpose} {idle : List String}
    (h : ∀ a ∈ idle, Path.IsIdle a) : t.followWithin purpose n l idle = .ok l := by
  induction idle with
  | nil => exact followWithin_nil
  | cons a idle ih =>
    obtain ⟨ha, hidle⟩ := List.forall_mem_cons.mp h
    rw [followWithin_idle ha, ih hidle]

/-- Idle names at the end do not matter to where a directory is. -/
theorem WellFormed.exists_leads_of_append_idle (ht : t.WellFormed) {n : Nat} {idle : List String}
    (h : t.Leads .target n [] (names ++ idle) way d) (hd : t.entryAt? d = some .directory)
    (hidle : ∀ a ∈ idle, Path.IsIdle a) : ∃ way, t.Leads .target n [] names way d := by
  obtain ⟨way', l, hl, hdirectory⟩ := ht.exists_leads_of_append h (fun _ => hd) (entryAt?_nil t)
  cases idle with
  | nil => exact ⟨way, List.append_nil names ▸ h⟩
  | cons a idle =>
    obtain ⟨m, hm⟩ := hl.followWithin_append hdirectory
    have hend := hm .target (a :: idle) (by simp) (by simp)
    rw [h.followWithin_eq, followWithin_of_forall_isIdle hidle] at hend
    exact ⟨way', Except.ok.inj hend ▸ hl⟩

/-- The parent of a path leads on as well. -/
theorem LeadsOn.parent (ht : t.WellFormed) (h : t.LeadsOn path d (names ++ [name])) :
    t.LeadsOn (Path.parent path) d names where
  leads := by
    obtain ⟨before, way, hwalked, hway⟩ := h.leads
    have hname : ¬ Path.IsIdle name := by
      have plain := h.down.plain name (by simp)
      rintro (rfl | rfl)
      · exact plain.1 rfl
      · exact plain.2.1 rfl
    rw [← List.append_assoc] at hwalked
    obtain ⟨idle, heq, hidle⟩ := Path.exists_eq_walked_parent_append hwalked hname
    rcases List.eq_nil_or_concat' names with rfl | ⟨init, last, rfl⟩
    · rw [List.append_nil] at heq
      obtain ⟨way', hway'⟩ := ht.exists_leads_of_append_idle (heq ▸ hway) h.down.directory hidle
      exact ⟨_, way', (List.append_nil _).symm, hway'⟩
    · rcases List.eq_nil_or_concat' idle with rfl | ⟨idle, a, rfl⟩
      · exact ⟨before, way, by rw [heq, List.append_nil], hway⟩
      · -- The last name before leads down, and so it is not idle.
        simp only [← List.append_assoc] at heq h hidle
        obtain rfl : last = a := List.singleton_inj.mp (List.append_inj_right' heq rfl)
        have plain := h.down.plain last (by simp)
        rcases hidle last (by simp) with rfl | rfl
        · exact absurd rfl plain.1
        · exact absurd rfl plain.2.1
  down := h.down.of_prefix (List.prefix_append names [name])

/-- The empty path leads to the top and no further. -/
theorem LeadsOn.eq_nil (h : t.LeadsOn "" d names) : names = [] := by
  obtain ⟨before, _, hwalked, -⟩ := h.leads
  exact (List.append_eq_nil_iff.mp (hwalked.symm.trans Path.walked_empty)).2

theorem checkPath_of_append {p : String} {more : String} (h : checkPath (p ++ more) = .ok ())
    (hp : p ≠ "") : checkPath p = .ok () := by
  obtain ⟨-, hnul, hshort⟩ := checkPath_eq_ok_iff.mp h
  refine checkPath_eq_ok_iff.mpr ⟨hp, fun hmem => hnul ?_, ?_⟩
  · rw [String.toList_append]
    exact List.mem_append_left _ hmem
  · simp only [isShort, String.utf8ByteSize_append, decide_eq_true_eq] at hshort ⊢
    omega

theorem checkPath_parent (h : checkPath path = .ok ()) (hparent : Path.parent path ≠ "") :
    checkPath (Path.parent path) = .ok () := by
  obtain ⟨behind, hbehind⟩ := Path.exists_eq_parent_append path
  exact checkPath_of_append (hbehind ▸ h) hparent

/-- **Directories are made along a path as far as nothing is in the way**, and the answer tells
what is. -/
theorem LeadsOn.makeDirectories_eq (ht : t.WellFormed) (h : t.LeadsOn path d names)
    (hcheck : path ≠ "" → checkPath path = .ok ()) : ∃ u,
      t.makeDirectories path = (answerTo (t.obstacle? d names), u) ∧ t.Paves d names u := by
  induction names using List.reverseRecOn generalizing path with
  | nil =>
    by_cases hpath : path = ""
    · exact ⟨t, by rw [hpath]; rfl, h.down.paves_nil⟩
    · have hdirectory : t.isDirectory path := (h.isDirectory_iff ht (hcheck hpath)).mpr
        ⟨rfl, (List.append_nil d).symm ▸ h.down.directory⟩
      exact ⟨t, ht.makeDirectories_eq_of_isDirectory hdirectory, h.down.paves_nil⟩
  | append_singleton names name ih =>
    have hpath : path ≠ "" := by
      rintro rfl
      simpa using h.eq_nil
    have hcheck := hcheck hpath
    obtain ⟨u, hu, hpaves⟩ := ih (h.parent ht) (checkPath_parent hcheck)
    have hgrows := makeDirectories_grows ht (Path.parent path)
    rw [hu] at hgrows
    rw [makeDirectories_eq_makeAfter hpath, hu]
    exact h.makeAfter_eq ht hcheck hgrows hpaves

/-- Nothing is made along a text that is no path. -/
theorem makeDirectories_of_checkPath {e : Error} (hpath : path ≠ "")
    (hcheck : checkPath path = .error e) : t.makeDirectories path = (.error e, t) := by
  have hne : e ≠ .notFound := by
    rintro rfl
    exact hpath (checkPath_eq_notFound_iff.mp hcheck)
  have hfails : t.makeDirectory path = .error e := by
    simp [makeDirectory, locateParent, hcheck, bind, Except.bind]
  have hmissing : t.isDirectory path = false := by
    simp [FileTree.isDirectory, FileTree.find, locate, hcheck, bind, Except.bind]
  rw [makeDirectories_eq_makeAfter hpath, makeAfter_of_error hfails hne, hmissing]
  rfl

/-- Directories that have been made are there. -/
theorem LeadsOn.of_makeDirectories_eq_ok (ht : t.WellFormed) (h : t.LeadsOn path d names)
    (hok : (t.makeDirectories path).1 = .ok ()) :
    (t.makeDirectories path).2.obstacle? d names = none ∧
      (t.makeDirectories path).2.entryAt? (d ++ names) = some .directory := by
  have hcheck (hpath : path ≠ "") : checkPath path = .ok () := by
    cases hcheck : checkPath path with
    | error e =>
      rw [makeDirectories_of_checkPath hpath hcheck] at hok
      simp at hok
    | ok => rfl
  obtain ⟨u, hmade, hpaves⟩ := h.makeDirectories_eq ht hcheck
  rw [hmade] at hok ⊢
  have hclear : t.obstacle? d names = none := by
    cases hobstacle : t.obstacle? d names with
    | none => rfl
    | some e => simp [hobstacle, answerTo] at hok
  exact ⟨hpaves.obstacle?_eq d names ▸ hclear, hpaves.made names List.prefix_rfl hclear⟩

/-! ## Fresh directories -/

theorem ofDigitChars_replicate_zero (k : Nat) (cs : List Char) :
    Nat.ofDigitChars 10 (List.replicate k '0' ++ cs) 0 = Nat.ofDigitChars 10 cs 0 := by
  induction k with
  | zero => rfl
  | succ k ih =>
    rw [List.replicate_succ, List.cons_append, Nat.ofDigitChars_cons]
    exact ih

/-- Fresh names tell their numbers. -/
theorem freshName_injective : Function.Injective freshName := by
  intro n m h
  have hdigits (n : Nat) : Nat.ofDigitChars 10
      ((freshName n).toList.drop freshStart.toList.length) 0 = n := by
    simp only [freshName, String.toList_append, String.toList_ofList, List.drop_left,
      ofDigitChars_replicate_zero]
    exact Nat.ofDigitChars_toDigits (by decide) (by decide)
  rw [← hdigits n, h, hdigits m]

theorem utf8Len_eq_length {cs : List Char} (h : ∀ c ∈ cs, c.isDigit) :
    String.utf8Len cs = cs.length := by
  induction cs with
  | nil => rfl
  | cons c cs ih =>
    obtain ⟨hc, hcs⟩ := List.forall_mem_cons.mp h
    have hsize : c.utf8Size = 1 := by
      rw [Char.utf8Size_eq_one_iff]
      simp only [Char.isDigit, Bool.and_eq_true, decide_eq_true_eq] at hc
      have h9 : c.val ≤ 57 := hc.2
      exact Nat.le_trans h9 (by decide)
    rw [String.utf8Len_cons, ih hcs, hsize, List.length_cons]

/-- Numbers of at most six digits make names of one size. -/
theorem utf8ByteSize_freshName {n : Nat} (h : n < 10 ^ 6) : (freshName n).utf8ByteSize = 10 := by
  have hlength : (Nat.toDigits 10 n).length ≤ 6 :=
    (Nat.length_toDigits_le_iff (by decide) (by decide)).mpr h
  have hstart : freshStart.utf8ByteSize = 4 := by decide
  rw [freshName, String.utf8ByteSize_append, String.utf8ByteSize_ofList, utf8Len_eq_length,
    List.length_append, List.length_replicate, hstart]
  · omega
  · intro c hc
    rcases List.mem_append.mp hc with hc | hc
    · rw [(List.mem_replicate.mp hc).2]
      decide
    · exact Nat.isDigit_of_mem_toDigits (by decide) (by decide) hc

theorem nul_notMem_freshName (n : Nat) : '\x00' ∉ (freshName n).toList := by
  simp only [freshName, freshStart, String.toList_append, String.toList_ofList, List.mem_append,
    List.mem_replicate, not_or]
  refine ⟨by decide, by simp, fun h => ?_⟩
  exact absurd (Nat.isDigit_of_mem_toDigits (by decide) (by decide) h) (by decide)

/-- There are no fewer entries than names that are taken. -/
theorem le_length_entries {n : Nat} (htaken : ∀ k < n, t.entryAt? (d ++ [freshName k]) ≠ none) :
    n ≤ t.entries.length := by
  have hnodup : ((List.range n).map fun k => d ++ [freshName k]).Nodup :=
    List.nodup_range.map fun k m h =>
      freshName_injective (List.singleton_inj.mp (List.append_cancel_left h))
  have hsubset : ((List.range n).map fun k => d ++ [freshName k]) ⊆ t.entries.map Prod.fst := by
    intro l hl
    obtain ⟨k, hk, rfl⟩ := List.mem_map.mp hl
    obtain ⟨entry, hentry⟩ := Option.ne_none_iff_exists'.mp (htaken k (List.mem_range.mp hk))
    exact List.mem_map_of_mem (mem_entries_of_entryAt? (by simp) hentry)
  simpa using (hnodup.subperm hsubset).length_le

end IdlCompiler.FileTree
