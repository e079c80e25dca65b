/-
# What a delivery adds to a file tree

Nothing is asked but the text of the schema before it is known what to deliver and where, so
that a delivery that is refused leaves the tree as it is.  A delivery that goes well adds one
file, and directories above it where nothing was; a file that holds the code already is not
written.  It goes well wherever the file can be, whatever was in the file before.

Main statements: `does_deliver_of_refuses`, `addsText_of_does`, `exists_does_deliver_of_hasRoomFor`
and `deliver_refuses_or_adds`.
-/
import IdlCompiler.Proofs.Mirrors
import IdlCompiler.Proofs.Outputs
import IdlCompiler.Proofs.Redeliveries

namespace IdlCompiler

open IdlCompiler.Path (IsName joinAll)

namespace FileTree

variable {t u : FileTree} {d l : Location} {path text file : String} {names : List String}

/-! ## Directories that are made -/

/-- A directory has been made for a path: it is where nothing was, and a path above leads there. -/
structure IsMadeFor (t u : FileTree) (path : String) (m : Location) : Prop where
  vacant : t.entryAt? m = none
  made : u.entryAt? m = some .directory
  above : ∃ p ∈ Path.above path, u.locate .target p = .ok m

/-- Single directories are all that is made. -/
theorem entryAt?_of_makeDirectories (ht : t.WellFormed) (path : String) (m : Location) :
    (t.makeDirectories path).2.entryAt? m = t.entryAt? m ∨
      (t.makeDirectories path).2.entryAt? m = some .directory := by
  have hrun {v : FileTree} (h : Relation.ReflTransGen (fun u v => ∃ p ∈ path :: Path.above path,
      u.makeDirectory p = .ok v) t v) :
      v.WellFormed ∧ (v.entryAt? m = t.entryAt? m ∨ v.entryAt? m = some .directory) := by
    induction h with
    | refl => exact ⟨ht, .inl rfl⟩
    | tail _ step ih =>
      obtain ⟨p, -, hmake⟩ := step
      obtain ⟨above, name, -, -, -, -, hadds, hv⟩ := makeDirectory_adds ih.1 hmake
      refine ⟨hadds.wellFormed ih.1, ?_⟩
      by_cases hm : m = above ++ [name]
      · exact .inr (by rw [hv, entryAt?_put _ (by simp), if_pos hm])
      · rw [hadds.entryAt?_of_ne hm]
        exact ih.2
  exact (hrun (makeDirectories_steps t path)).2

/-- What is made for a path is made above it, where nothing was. -/
theorem entryAt?_of_makeDirectories_parent (ht : t.WellFormed) (path : String) (m : Location) :
    (t.makeDirectories (Path.parent path)).2.entryAt? m = t.entryAt? m ∨
      t.IsMadeFor (t.makeDirectories (Path.parent path)).2 path m := by
  by_cases hparent : Path.parent path = ""
  · rw [hparent]
    exact .inl rfl
  have habove : Path.parent path :: Path.above (Path.parent path) = Path.above path := by
    rw [Path.above_eq_parent path, if_neg hparent]
  have hgrows := makeDirectories_grows ht (Path.parent path)
  rw [habove] at hgrows
  by_cases harea : t.entryAt? m = none ∧ ∃ p ∈ Path.above path,
      (t.makeDirectories (Path.parent path)).2.locate .target p = .ok m
  · exact (entryAt?_of_makeDirectories ht _ m).imp id fun made => ⟨harea.1, made, harea.2⟩
  · exact .inl (hgrows.entryAt?_eq harea)

/-! ## Texts that are added -/

/-- A tree is another one with a text in a file under a path.  Directories have been made for it
if they were missing; all else is what it was, and so is a file that held the text before. -/
structure AddsText (t : FileTree) (path text : String) (l : Location) (u : FileTree) : Prop where
  leads : u.locate .target path = .ok l
  hasText : u.HasText l text
  others : ∀ m ≠ l, u.entryAt? m = t.entryAt? m ∨ t.IsMadeFor u path m
  kept : t.HasText l text → u.entryAt? l = t.entryAt? l

/-- A text is added where it stands once the directories above are made. -/
theorem addsText_of_present (ht : t.WellFormed)
    (h : (t.makeDirectories (Path.parent path)).2.readText path = .ok text) :
    ∃ l, t.AddsText path text l (t.makeDirectories (Path.parent path)).2 := by
  obtain ⟨l, hl, htext⟩ := readText_eq_ok_iff.mp h
  refine ⟨l, hl, htext, fun m _ => entryAt?_of_makeDirectories_parent ht path m, fun hold => ?_⟩
  obtain hkept | made := entryAt?_of_makeDirectories_parent ht path l
  · exact hkept
  · obtain ⟨content, modified, hentry, -⟩ := hold
    simp [made.vacant] at hentry

/-- A text is added where it is written once the directories above are made. -/
theorem addsText_of_writeFile (ht : t.WellFormed)
    (h : (t.makeDirectories (Path.parent path)).2.writeFile path text.toUTF8 = .ok u)
    (habsent : (t.makeDirectories (Path.parent path)).2.readText path ≠ .ok text) :
    ∃ l, t.AddsText path text l u ∧ ¬ t.HasText l text := by
  have hv := (makeDirectories_changes ht (Path.parent path)).wellFormed ht
  obtain ⟨l, hmaking, hadds, hl, htext⟩ := writeFile_hasText hv h
  have hold : ¬ t.HasText l text := by
    rw [← hasText_makeDirectories ht (Path.parent path)]
    intro hold
    obtain ⟨hcheck, way, hway⟩ := locate_eq_ok_iff.mp hmaking
    have htarget := locate_eq_ok_iff.mpr ⟨hcheck, way, hway.target_of_making⟩
    exact habsent (readText_eq_ok_iff.mpr ⟨l, htarget, hold⟩)
  refine ⟨l, ⟨hl, htext, fun m hm => ?_, fun h => absurd h hold⟩, hold⟩
  rw [hadds.entryAt?_of_ne hm]
  refine (entryAt?_of_makeDirectories_parent ht path m).imp id fun made => ?_
  obtain ⟨p, hp, hlocate⟩ := made.above
  refine ⟨made.vacant, (hadds.entryAt?_of_ne hm).trans made.made, p, hp, ?_⟩
  obtain ⟨hcheck, way, hway⟩ := locate_eq_ok_iff.mp hlocate
  exact locate_eq_ok_iff.mpr ⟨hcheck, way,
    hway.mono_of_directory made.made fun m _ => hadds.stays m⟩

/-! ## Places for files -/

/-- A file can be under a path that leads down from a directory: no link is on the way, the
directories above are there or can be made, and the file has no name of a directory that is
there. -/
structure HasRoomFor (t : FileTree) (path : String) (d : Location) (names : List String)
    (file : String) : Prop where
  leads : t.LeadsOn path d (names ++ [file])
  check : checkPath path = .ok ()
  noFinalSlash : Path.hasFinalSlash path = false
  clear : t.obstacle? d names = none
  short : file.utf8ByteSize ≤ maxNameSize
  free : t.entryAt? (d ++ (names ++ [file])) ≠ some .directory

theorem HasRoomFor.makeDirectories_eq (ht : t.WellFormed) (h : t.HasRoomFor path d names file) :
    ∃ v, t.makeDirectories (Path.parent path) = (.ok (), v) ∧ t.Paves d names v := by
  have hmade := (h.leads.parent ht).makeDirectories_eq ht (checkPath_parent h.check)
  rwa [h.clear] at hmade

/-- Once its directories are made, a file can be written where there is room for it. -/
theorem HasRoomFor.locate_eq (ht : t.WellFormed) (h : t.HasRoomFor path d names file) :
    (t.makeDirectories (Path.parent path)).1 = .ok () ∧
      (∀ purpose, (t.makeDirectories (Path.parent path)).2.locate purpose path
        = .ok (d ++ (names ++ [file]))) ∧
      (t.makeDirectories (Path.parent path)).2.isDirectoryAt (d ++ (names ++ [file])) = false := by
  obtain ⟨v, hv, hpaves⟩ := h.makeDirectories_eq ht
  have hgrows := makeDirectories_grows ht (Path.parent path)
  rw [hv] at hgrows ⊢
  refine ⟨rfl, (h.leads.of_grows hgrows).locate_eq (hgrows.changes.wellFormed ht) h.check
    h.noFinalSlash (hpaves.obstacle?_eq d names ▸ h.clear)
    (hpaves.made names List.prefix_rfl h.clear) h.short, ?_⟩
  -- The file is below all directories that have been made.
  have hkept : v.entryAt? (d ++ (names ++ [file])) = t.entryAt? (d ++ (names ++ [file])) := by
    refine hpaves.kept _ fun start hstart _ _ heq => ?_
    obtain rfl := List.append_cancel_left heq
    simpa using hstart.length_le
  rw [Bool.eq_false_iff, ne_eq, isDirectoryAt_iff, hkept]
  exact h.free

end FileTree

open FileTree

variable {t u : FileTree} {d : Location} {schemaFile output text code target file : String}
  {parts names : List String} {e : GenerationError} {result : Except GenerationError String}
  {asked : List Request} {p : Protocol}

/-! ## Refusals -/

/-- Why a file is refused: it cannot be read, it is no canonical document, or there is no place
for its protocol. -/
inductive Refuses (t : FileTree) (schemaFile : String) : GenerationError → Prop
  | unread {cause : FileTree.Error} (h : t.readText schemaFile = .error cause) :
      Refuses t schemaFile (.io cause)
  | unclear {text : String} {cause : ReadError} (read : t.readText schemaFile = .ok text)
      (h : Protocol.ofText text = .error cause) : Refuses t schemaFile (.read cause)
  | homeless {text : String} {p : Protocol} {e : GenerationError}
      (read : t.readText schemaFile = .ok text) (known : Protocol.ofText text = .ok p)
      (h : (Resolved.ofProtocol p).outputParts = .error e) : Refuses t schemaFile e

theorem deliverable_of_ofText (known : Protocol.ofText text = .ok p) : deliverable text =
    (Resolved.ofProtocol p).outputParts.map fun parts => (parts, (Resolved.ofProtocol p).code) := by
  simp only [deliverable, known]
  cases (Resolved.ofProtocol p).outputParts <;> rfl

theorem deliverable_eq_ok_iff : deliverable text = .ok (parts, code) ↔
    ∃ p, Protocol.ofText text = .ok p ∧ (Resolved.ofProtocol p).outputParts = .ok parts ∧
      (Resolved.ofProtocol p).code = code := by
  cases known : Protocol.ofText text with
  | error cause => simp [deliverable, known]
  | ok p =>
    rw [deliverable_of_ofText known]
    cases hparts : (Resolved.ofProtocol p).outputParts <;> simp [Except.map, hparts]

theorem does_readText (read : t.readText schemaFile = .ok text) :
    (Attempt.of GenerationError.io (Work.readText schemaFile)).outcome.Does serve t
      [.readText schemaFile] (.ok text) t := by
  have hread := Work.does_request serve (.readText schemaFile) t
  simp only [serve, read] at hread
  exact Attempt.does_of GenerationError.io hread

/-- **A file that is refused is read, and nothing else happens.** -/
theorem does_deliver_of_refuses (h : Refuses t schemaFile e) (output : String) :
    (deliver schemaFile output).outcome.Does serve t [.readText schemaFile] (.error e) t := by
  have hmade {text : String} (read : t.readText schemaFile = .ok text)
      (unmade : deliverable text = .error e) :
      (deliver schemaFile output).outcome.Does serve t [.readText schemaFile] (.error e) t := by
    have hresult : (Attempt.ofResult (deliverable text)).outcome.Does serve t [] (.error e) t :=
      unmade ▸ Work.does_done serve _ t
    exact Attempt.does_bind_ok (does_readText read) (Attempt.does_bind_error hresult)
  cases h with
  | unread h =>
    have hread := Work.does_request serve (.readText schemaFile) t
    simp only [serve, h] at hread
    exact Attempt.does_bind_error (Attempt.does_of GenerationError.io hread)
  | unclear read h => exact hmade read (by simp [deliverable, h])
  | homeless read known h => exact hmade read (by simp [deliverable_of_ofText known, h, Except.map])

/-! ## Additions -/

/-- A text that is there is not written. -/
theorem does_writeChanged_of_present {path : String} (present : t.readText path = .ok text) :
    (writeChanged path text).Does serve t [.readText path] (.ok ()) t := by
  have hread := Work.does_request serve (.readText path) t
  simp only [serve, present] at hread
  exact hread.bind_done (if_pos rfl)

/-- A delivery that goes well makes the directories above its code, and then it sees to the
code. -/
theorem exists_of_does_deliver
    (h : (deliver schemaFile output).outcome.Does serve t asked (.ok target) u) :
    ∃ text parts code more, t.readText schemaFile = .ok text ∧
      deliverable text = .ok (parts, code) ∧ target = joinAll output parts ∧
      asked = [.readText schemaFile, .makeDirectories (Path.parent target)] ++ more ∧
      (writeChanged target code).Does serve (t.makeDirectories (Path.parent target)).2 more (.ok ())
        u := by
  rcases Attempt.of_does_bind h with ⟨_, ⟨⟩, -⟩ | ⟨_, text, s₁, _, rfl, hread, h₁⟩
  obtain ⟨rfl, read, hs₁⟩ := (Attempt.of_does_of_ok hread).of_request
  obtain rfl : t = s₁ := hs₁.symm
  rcases Attempt.of_does_bind h₁ with ⟨_, ⟨⟩, -⟩ | ⟨_, ⟨parts, code⟩, s₂, _, rfl, hmade, h₂⟩
  obtain ⟨rfl, made, hs₂⟩ := Attempt.of_does_ofResult hmade
  obtain rfl : t = s₂ := hs₂.symm
  rcases Attempt.of_does_bind h₂ with ⟨_, ⟨⟩, -⟩ | ⟨_, _, s₃, _, rfl, hdirectories, h₃⟩
  obtain ⟨rfl, -, hs₃⟩ := (Attempt.of_does_of_ok hdirectories).of_request
  rcases Attempt.of_does_bind h₃ with ⟨_, ⟨⟩, -⟩ | ⟨more, _, s₄, _, rfl, hwrite, h₄⟩
  obtain ⟨rfl, htarget, rfl⟩ := h₄.unique (Attempt.does_pure serve _ s₄)
  obtain rfl := Except.ok.inj htarget
  have hwrite := Attempt.of_does_of_ok hwrite
  rw [hs₃] at hwrite
  exact ⟨text, parts, code, more, read.symm, made.symm, rfl, by simp, hwrite⟩

/-- **A delivery that goes well adds the code under the path that it gives**, and does not write a
file that holds the code. -/
theorem addsText_of_does (ht : t.WellFormed)
    (h : (deliver schemaFile output).outcome.Does serve t asked (.ok target) u) :
    ∃ text p parts l, t.readText schemaFile = .ok text ∧ Protocol.ofText text = .ok p ∧
      (Resolved.ofProtocol p).outputParts = .ok parts ∧ target = joinAll output parts ∧
      t.AddsText target (Resolved.ofProtocol p).code l u ∧
      (t.HasText l (Resolved.ofProtocol p).code → written asked = []) := by
  obtain ⟨text, parts, code, more, read, made, htarget, rfl, hwrite⟩ := exists_of_does_deliver h
  obtain ⟨p, known, hparts, rfl⟩ := deliverable_eq_ok_iff.mp made
  have hasked : written ([.readText schemaFile, .makeDirectories (Path.parent target)] ++ more)
      = written more := rfl
  by_cases present : (t.makeDirectories (Path.parent target)).2.readText target
      = .ok (Resolved.ofProtocol p).code
  · obtain ⟨rfl, -, rfl⟩ := hwrite.unique (does_writeChanged_of_present present)
    obtain ⟨l, hadds⟩ := addsText_of_present ht present
    exact ⟨text, p, parts, l, read, known, hparts, htarget, hadds, fun _ => rfl⟩
  · obtain ⟨-, there, -⟩ | ⟨-, writes⟩ | ⟨_, ⟨⟩, -⟩ := writeChanged_cases hwrite
    · exact absurd there present
    · obtain ⟨l, hadds, hold⟩ := addsText_of_writeFile ht writes present
      exact ⟨text, p, parts, l, read, known, hparts, htarget, hadds, fun h => absurd h hold⟩

/-- **A delivery goes well wherever there is room for the code**, whatever was in the file
before. -/
theorem exists_does_deliver_of_hasRoomFor (ht : t.WellFormed)
    (read : t.readText schemaFile = .ok text) (made : deliverable text = .ok (parts, code))
    (room : t.HasRoomFor (joinAll output parts) d names file) : ∃ asked u,
      (deliver schemaFile output).outcome.Does serve t asked (.ok (joinAll output parts)) u := by
  obtain ⟨directories, place, free⟩ := room.locate_eq ht
  exact exists_does_deliver read made directories (place .making) free

/-- **A delivery is refused and leaves the tree as it is, or it adds the code**, and then nothing
but the code and the directories above it: it is refused if the file cannot be read, if this is no
canonical document and if there is no place for its protocol, and it goes well wherever there is
room for the code. -/
theorem deliver_refuses_or_adds (ht : t.WellFormed)
    (h : (deliver schemaFile output).outcome.Does serve t asked result u) :
    (∀ e, Refuses t schemaFile e → result = .error e ∧ u = t) ∧
    (∀ target, result = .ok target → ∃ text p parts l, t.readText schemaFile = .ok text ∧
      Protocol.ofText text = .ok p ∧ (Resolved.ofProtocol p).outputParts = .ok parts ∧
      target = joinAll output parts ∧ t.AddsText target (Resolved.ofProtocol p).code l u ∧
      (t.HasText l (Resolved.ofProtocol p).code → written asked = [])) ∧
    (∀ text p parts, t.readText schemaFile = .ok text → Protocol.ofText text = .ok p →
      (Resolved.ofProtocol p).outputParts = .ok parts →
      (∃ d names file, t.HasRoomFor (joinAll output parts) d names file) →
        result = .ok (joinAll output parts)) := by
  refine ⟨fun e hrefuses => ?_, ?_, fun text p parts read known hparts ⟨d, names, file, room⟩ => ?_⟩
  · exact (h.unique (does_deliver_of_refuses hrefuses output)).2
  · rintro target rfl
    exact addsText_of_does ht h
  · have made := deliverable_eq_ok_iff.mpr ⟨p, known, hparts, rfl⟩
    obtain ⟨_, _, hdoes⟩ := exists_does_deliver_of_hasRoomFor ht read made room
    exact (h.unique hdoes).2.1

/-- In `twinTree` there is room for a file in a directory that is missing. -/
theorem hasRoomFor_twinTree : Build.twinTree.HasRoomFor "out/a.rs" [] ["out"] "a.rs" where
  leads := {
    leads := ⟨[], [], rfl, .stay⟩
    down := {
      directory := rfl
      plain := by simp [Path.IsPlain]
      noLink := fun _ _ => Build.hasNoLinks_twinTree _ } }
  check := rfl
  noFinalSlash := rfl
  clear := rfl
  short := by decide
  free := by simp [show Build.twinTree.entryAt? ["out", "a.rs"] = none from rfl]

/-- The code of the first source of `twinTree` is added; a directory in place of a source is
refused. -/
theorem twinTree_gets_code : Build.twinTree.WellFormed ∧
    (∃ asked u p l, (deliver "src/a.schema" "out").outcome.Does serve Build.twinTree asked
      (.ok "out/a.rs") u ∧ Protocol.ofText Build.firstDocument = .ok p ∧
      Build.twinTree.AddsText "out/a.rs" (Resolved.ofProtocol p).code l u) ∧
    ∃ asked, (deliver "src" "out").outcome.Does serve Build.twinTree asked
      (.error (.io .isADirectory)) Build.twinTree := by
  refine ⟨Build.wellFormed_twinTree, ?_, ?_⟩
  · have hparts : ((Protocol.ofText Build.firstDocument).toOption.bind fun p =>
        (Resolved.ofProtocol p).outputParts.toOption) = some ["a.rs"] := by decide +kernel
    obtain ⟨p, hp, hparts⟩ := Option.bind_eq_some_iff.mp hparts
    have known := eq_ok_of_toOption hp
    have read : Build.twinTree.readText "src/a.schema" = .ok Build.firstDocument :=
      eq_ok_of_toOption (by decide +kernel)
    have hdoes := Work.does_self serve (deliver "src/a.schema" "out").outcome Build.twinTree
    obtain ⟨-, hadds, hroom⟩ := deliver_refuses_or_adds Build.wellFormed_twinTree hdoes
    have hresult := hroom _ p _ read known (eq_ok_of_toOption hparts)
      ⟨[], ["out"], "a.rs", hasRoomFor_twinTree⟩
    obtain ⟨text, q, _, l, read', known', -, -, hadds, -⟩ := hadds _ hresult
    obtain rfl := Except.ok.inj (read.symm.trans read')
    obtain rfl := Except.ok.inj (known.symm.trans known')
    rw [hresult] at hdoes
    exact ⟨_, _, p, l, hdoes, known, hadds⟩
  · have unread : Build.twinTree.readText "src" = .error .isADirectory := rfl
    have hdoes := Work.does_self serve (deliver "src" "out").outcome Build.twinTree
    obtain ⟨hrefuses, -⟩ := deliver_refuses_or_adds Build.wellFormed_twinTree hdoes
    obtain ⟨hresult, htree⟩ := hrefuses _ (.unread unread)
    rw [hresult, htree] at hdoes
    exact ⟨_, hdoes⟩

end IdlCompiler
