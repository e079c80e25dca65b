/-
# Delivering code again

Where the path of code leads to a file, the directory of the path is there, and so no directory
is made for the code and the file can be written.  It is written unless it holds the code.

Main statement: `exists_does_deliver_again`.
-/
import IdlCompiler.Proofs.Directories
import IdlCompiler.Proofs.Deliveries

namespace IdlCompiler

open IdlCompiler.Path (IsPlain IsName IsIdle walked joinAll)

namespace FileTree

variable {t : FileTree} {n : Nat} {here l d : Location} {names : List String}
  {way : List Location} {path name : String}

/-- A way that does not end at a directory can also be gone to make a file. -/
theorem WellFormed.leads_making (ht : t.WellFormed) (h : t.Leads .target n here names way l)
    (hl : t.entryAt? l ≠ some .directory) (hhere : t.entryAt? here = some .directory) :
    t.Leads .making n here names way l := by
  induction h with
  | stay => exact .stay
  | idle hidle _ ih => exact .idle hidle (ih hl hhere)
  | up _ ih => exact .up (ih hl (ht.entryAt?_dropLast hhere))
  | last plain short ends => exact .last plain short (ends.of_ne_entry (by simp))
  | down plain short _ directory on ih =>
    refine .down plain short ?_ directory (ih hl directory)
    rintro ⟨-, rfl⟩
    have hon : t.Leads .target _ _ ([] ++ [""]) _ _ := on
    exact hl (ht.directory_of_leads hon directory).2
  | link plain short _ present _ on ih =>
    refine .link plain short ?_ present (by simp) (ih hl (entryAt?_linkStart hhere))
    rintro ⟨-, rfl⟩
    exact hl (ht.directory_of_leads on (entryAt?_linkStart hhere)).2

theorem WellFormed.locate_making (ht : t.WellFormed) (h : t.locate .target path = .ok l)
    (hl : t.entryAt? l ≠ some .directory) : t.locate .making path = .ok l := by
  obtain ⟨hcheck, way, hway⟩ := locate_eq_ok_iff.mp h
  exact locate_eq_ok_iff.mpr ⟨hcheck, way, ht.leads_making hway hl (entryAt?_nil t)⟩

theorem WellFormed.isDirectory_of_leads (ht : t.WellFormed) (hcheck : checkPath path = .ok ())
    (h : t.Leads .target maxLinks [] (walked path) way d) (hd : t.entryAt? d = some .directory) :
    t.isDirectory path := by
  have hleads : t.LeadsOn path d [] :=
    ⟨⟨_, way, (List.append_nil _).symm, h⟩, hd, by simp, by simp [hd]⟩
  exact (hleads.isDirectory_iff ht hcheck).mpr ⟨rfl, by simpa using hd⟩

/-- The parent of a path that leads somewhere leads to a directory. -/
theorem WellFormed.isDirectory_parent (ht : t.WellFormed) (h : t.locate .target path = .ok l)
    (hwalked : walked path = names ++ [name]) (hname : ¬ IsIdle name) :
    Path.parent path = "" ∨ t.isDirectory (Path.parent path) := by
  refine or_iff_not_imp_left.mpr fun hparent => ?_
  obtain ⟨hcheck, way, hway⟩ := locate_eq_ok_iff.mp h
  have hway := ht.leads_walked hway
  rw [hwalked] at hway
  obtain ⟨way', d, hd, hdirectory⟩ := ht.exists_leads_of_append hway (by simp) (entryAt?_nil t)
  obtain ⟨idle, rfl, hidle⟩ := Path.exists_eq_walked_parent_append hwalked hname
  obtain ⟨way'', hd'⟩ := ht.exists_leads_of_append_idle hd hdirectory hidle
  exact ht.isDirectory_of_leads (checkPath_parent hcheck hparent) hd' hdirectory

/-- A path that ends with a name and leads somewhere has its directory there, so that this is not
made again. -/
theorem WellFormed.makeDirectories_parent (ht : t.WellFormed)
    (hsteps : Path.steps path = names ++ [name]) (hname : IsName name)
    (h : t.locate .target path = .ok l) :
    t.makeDirectories (Path.parent path) = (.ok (), t) := by
  have hwalked := Path.walked_eq_of_steps hsteps hname.plain.1
  rcases ht.isDirectory_parent h hwalked hname.not_isIdle with hparent | hparent
  · rw [makeDirectories, if_pos hparent]
  · exact ht.makeDirectories_eq_of_isDirectory hparent

end FileTree

open FileTree

variable {t u : FileTree} {l : Location} {schemaFile output text code path : String}
  {parts : List String} {asked more : List Request}

/-! ## Written paths -/

/-- The path that a request writes a file under, if it does. -/
def Request.written? : Request → Option String
  | .writeText path _ => some path
  | _ => none

/-- The paths that files are written under, in order. -/
def written (asked : List Request) : List String := asked.filterMap Request.written?

theorem written_append (asked more : List Request) :
    written (asked ++ more) = written asked ++ written more := List.filterMap_append

/-! ## Delivering again -/

theorem does_writeText (h : t.writeFile path text.toUTF8 = .ok u) :
    (Work.writeText path text).Does serve t [.writeText path text] (.ok ()) u := by
  have hdoes := Work.does_request serve (.writeText path text) t
  simp only [serve, h, changed] at hdoes
  exact hdoes

/-- A text is written into a file unless the file holds it. -/
theorem exists_does_writeChanged (ht : t.WellFormed) (hpath : t.locate .target path = .ok l)
    (hl : t.IsFileAt l) : ∃ asked u,
      (writeChanged path code).Does serve t asked (.ok ()) u ∧ Grows (· = l) t u ∧
        u.HasText l code ∧ (t.HasText l code → u = t ∧ written asked = []) ∧
        (¬ t.HasText l code → written asked = [path]) := by
  have hread := Work.does_request serve (.readText path) t
  by_cases hcode : t.HasText l code
  · have hanswer : (serve (.readText path) t).1 = .ok code :=
      readText_eq_ok_iff.mpr ⟨l, hpath, hcode⟩
    rw [hanswer] at hread
    exact ⟨_, t, hread.bind_done (if_pos rfl), .refl, hcode, fun _ => ⟨rfl, rfl⟩,
      fun h => absurd hcode h⟩
  · have hfree : t.isDirectoryAt l = false := by
      obtain ⟨content, modified, hentry⟩ := hl
      simp [isDirectoryAt, hentry, Entry.isDirectory]
    have hmaking := ht.locate_making hpath fun hdirectory => by
      simp [isDirectoryAt_iff.mpr hdirectory] at hfree
    obtain ⟨u, hwrite⟩ := exists_writeFile_eq hmaking hfree code.toUTF8
    obtain ⟨l', hl', hadds, -, htext⟩ := writeFile_hasText ht hwrite
    obtain rfl := Except.ok.inj (hmaking.symm.trans hl')
    have hwritten : (writeChanged path code).Does serve t
        ([.readText path] ++ [.writeText path code]) (.ok ()) u := by
      refine Work.Does.bind hread ?_
      cases hanswer : (serve (.readText path) t).1 with
      | error e => exact does_writeText hwrite
      | ok present =>
        have hne : present ≠ code := fun heq => by
          obtain ⟨m, hm, htext⟩ := readText_eq_ok_iff.mp hanswer
          obtain rfl := Except.ok.inj (hpath.symm.trans hm)
          exact hcode (heq ▸ htext)
        dsimp only
        rw [if_neg hne]
        exact does_writeText hwrite
    exact ⟨_, u, hwritten, .single ⟨l, rfl, hadds⟩, htext, fun h => absurd h hcode, fun _ => rfl⟩

/-- **Where the path of code leads to a file, delivering the code writes this file and nothing
else**, and it writes it only if the file does not hold the code. -/
theorem exists_does_deliver_again (ht : t.WellFormed) (read : t.readText schemaFile = .ok text)
    (made : deliverable text = .ok (parts, code))
    (hpath : t.locate .target (joinAll output parts) = .ok l) (hl : t.IsFileAt l) : ∃ asked u,
      (deliver schemaFile output).outcome.Does serve t asked (.ok (joinAll output parts)) u ∧
        Grows (· = l) t u ∧ u.HasText l code ∧ (t.HasText l code → u = t ∧ written asked = []) ∧
        (¬ t.HasText l code → written asked = [joinAll output parts]) := by
  obtain ⟨directories, file, rfl, hnames⟩ := isPartName_of_deliverable made
  have hsteps := Path.steps_joinAll (d := output) (by simp) fun a ha => (hnames a ha).1
  rw [← List.append_assoc] at hsteps
  have hparent := ht.makeDirectories_parent hsteps (hnames file (by simp)).1 hpath
  obtain ⟨asked, u, hwrites, hgrows, htext, hkept, hwritten⟩ :=
    exists_does_writeChanged ht hpath hl
  have hread : (Work.readText schemaFile).Does serve t [.readText schemaFile] (.ok text) t :=
    read ▸ Work.does_request serve (.readText schemaFile) t
  have hmade : (Attempt.ofResult (deliverable text)).outcome.Does serve t []
      (.ok (directories ++ [file], code)) t := made ▸ Work.does_done serve _ t
  have hdirectories := Work.does_request serve
    (.makeDirectories (Path.parent (joinAll output (directories ++ [file])))) t
  simp only [serve, hparent] at hdirectories
  have hdoes : (deliver schemaFile output).outcome.Does serve t _
      (.ok (joinAll output (directories ++ [file]))) u :=
    Attempt.does_bind_ok (Attempt.does_of GenerationError.io hread)
      (Attempt.does_bind_ok hmade
        (Attempt.does_bind_ok (Attempt.does_of GenerationError.io hdirectories)
          (Attempt.does_bind_done (Attempt.does_of GenerationError.io hwrites) rfl)))
  -- Nothing else that is asked writes a file.
  have hasked : written ([.readText schemaFile] ++ ([] ++ ([.makeDirectories (Path.parent
      (joinAll output (directories ++ [file])))] ++ asked))) = written asked := rfl
  exact ⟨_, u, hdoes, hgrows, htext, fun h => ⟨(hkept h).1, hasked.trans (hkept h).2⟩,
    fun h => hasked.trans (hwritten h)⟩

end IdlCompiler
