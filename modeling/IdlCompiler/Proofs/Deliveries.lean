/-
# What a delivery does to a file tree

A delivery makes the directories that its code needs and writes the code, unless a file holds
it already.  It stops at the first thing that fails.  All that it makes is along the path of
its code; afterwards the path leads to the code, and the texts of all other files are what
they were.

Main statements: `delivers_of_does`, there are no other ways for a delivery; `Delivers.grows`,
where it makes something; and `Delivers.hasText`, what is in the files after it.
-/
import IdlCompiler.Proofs.Workspaces
import IdlCompiler.Target.Delivery

namespace IdlCompiler

open IdlCompiler.Path (IsPlain IsName walked joinAll)

namespace FileTree

variable {t u : FileTree} {l m : Location} {path text : String}

/-! ## Texts of files -/

/-- A file with a text stands at a place. -/
def HasText (t : FileTree) (l : Location) (text : String) : Prop :=
  ∃ content modified, t.entryAt? l = some (.file content modified) ∧
    String.fromUTF8? content = some text

theorem HasText.unique {text' : String} (h : t.HasText l text) (h' : t.HasText l text') :
    text = text' := by
  obtain ⟨content, modified, hentry, htext⟩ := h
  obtain ⟨content', modified', hentry', htext'⟩ := h'
  rw [hentry] at hentry'
  obtain ⟨rfl, -⟩ := Entry.file.inj (Option.some.inj hentry')
  exact Option.some.inj (htext.symm.trans htext')

theorem isFileAt_of_hasText (h : t.HasText l text) : t.IsFileAt l := by
  obtain ⟨content, modified, hentry, -⟩ := h
  exact ⟨content, modified, hentry⟩

theorem not_isFileAt_of_directory (h : t.entryAt? l = some .directory) : ¬ t.IsFileAt l := by
  rintro ⟨content, modified, hentry⟩
  simp [h] at hentry

theorem hasText_of_entryAt?_eq (h : u.entryAt? l = t.entryAt? l) :
    u.HasText l text ↔ t.HasText l text := by
  rw [HasText, HasText, h]

theorem readText_eq_ok_iff :
    t.readText path = .ok text ↔ ∃ l, t.locate .target path = .ok l ∧ t.HasText l text := by
  unfold readText FileTree.find HasText
  cases hl : t.locate .target path with
  | error e => simp [bind, Except.bind]
  | ok l =>
    simp only [bind, Except.bind, Except.ok.injEq, exists_eq_left']
    cases t.entryAt? l with
    | none => simp
    | some entry =>
      cases entry with
      | directory | link => simp
      | file content modified => cases htext : String.fromUTF8? content <;> simp [htext]

theorem fromUTF8?_toUTF8 (text : String) : String.fromUTF8? text.toUTF8 = some text := by
  rw [String.fromUTF8?, String.toUTF8_eq_toByteArray, dif_pos text.isValidUTF8]
  rfl

/-- A text is read where it has been written. -/
theorem writeFile_hasText (ht : t.WellFormed) (h : t.writeFile path text.toUTF8 = .ok u) :
    ∃ l, t.locate .making path = .ok l ∧ t.Adds l u ∧ u.locate .target path = .ok l ∧
      u.HasText l text := by
  obtain ⟨l, hl, hadds, hu⟩ := writeFile_adds ht h
  have hentry : u.entryAt? l = some (.file text.toUTF8 t.now) := by
    rw [hu, entryAt?_put t hadds.exists_eq_put.1.ne_nil, if_pos rfl]
  obtain ⟨hcheck, way, hway⟩ := locate_eq_ok_iff.mp hl
  refine ⟨l, hl, hadds, locate_eq_ok_iff.mpr ⟨hcheck, way, ?_⟩, _, _, hentry, ?_⟩
  · exact hway.target_of_making.mono (fun m _ => hadds.stays m) fun _ => by simp [Ends, hentry]
  · exact fromUTF8?_toUTF8 text

/-- A file is written where no directory is. -/
theorem exists_writeFile_eq (hl : t.locate .making path = .ok l)
    (hfree : t.isDirectoryAt l = false) (content : ByteArray) :
    ∃ u, t.writeFile path content = .ok u := by
  rw [writeFile, hl]
  cases hentry : t.entryAt? l with
  | none => simp [hentry, bind, Except.bind]
  | some entry => cases entry <;> simp_all [isDirectoryAt, Entry.isDirectory, bind, Except.bind]

/-- The texts of files are what they were where directories are made. -/
theorem hasText_makeDirectories (ht : t.WellFormed) (path : String) (l : Location) (text : String) :
    (t.makeDirectories path).2.HasText l text ↔ t.HasText l text := by
  have hstep {u v : FileTree} {p : String} (hu : u.WellFormed) (h : u.makeDirectory p = .ok v) :
      v.HasText l text ↔ u.HasText l text := by
    obtain ⟨above, name, -, -, -, vacant, hadds, hv⟩ := makeDirectory_adds hu h
    by_cases hl : l = above ++ [name]
    · subst hl
      simp [HasText, hv, entryAt?_put u, vacant]
    · exact hasText_of_entryAt?_eq (hadds.entryAt?_of_ne hl)
  have hrun {v : FileTree} (h : Relation.ReflTransGen (fun u v => ∃ p ∈ path :: Path.above path,
      u.makeDirectory p = .ok v) t v) : v.WellFormed ∧ (v.HasText l text ↔ t.HasText l text) := by
    induction h with
    | refl => exact ⟨ht, Iff.rfl⟩
    | tail _ step ih =>
      obtain ⟨p, -, hmake⟩ := step
      obtain ⟨_, _, -, -, -, -, hadds, -⟩ := makeDirectory_adds ih.1 hmake
      exact ⟨hadds.wellFormed ih.1, (hstep ih.1 hmake).trans ih.2⟩
  exact (hrun (makeDirectories_steps t path)).2

end FileTree

open FileTree

variable {t u : FileTree} {l m : Location} {schemaFile output text code target : String}
  {parts : List String} {result : Except GenerationError String} {asked : List Request}

/-! ## Parts of paths -/

/-- The names below the output directory have no slashes and no hyphens. -/
def IsPartName (name : String) : Prop := IsName name ∧ '-' ∉ name.toList

theorem isPartName_of_chars {name : String} {c : Char}
    (hchars : ∀ d ∈ name.toList, Name.isPart d ∨ d = '.') (hc : c ∈ name.toList) (hdot : c ≠ '.') :
    IsPartName name := by
  refine ⟨⟨⟨?_, ?_, ?_⟩, fun hslash => absurd (hchars _ hslash) (by decide)⟩,
    fun hhyphen => absurd (hchars _ hhyphen) (by decide)⟩
  all_goals
    rintro rfl
    simp_all

theorem isPartName_of_isIdentifier {name : String} (h : Name.isIdentifier name) :
    IsPartName name := by
  obtain ⟨⟨c, hc, hstart⟩, hchars⟩ := (Name.isIdentifierChars_iff _).mp h
  refine isPartName_of_chars (fun d hd => .inl (hchars d hd)) (List.mem_of_head? hc) ?_
  rintro rfl
  exact absurd hstart (by decide)

theorem isPartName_fileName {name : String} (h : Name.isIdentifier name) :
    IsPartName (name ++ ".rs") := by
  have hchars := ((Name.isIdentifierChars_iff _).mp h).2
  refine isPartName_of_chars (c := 's') (fun d hd => ?_) (by simp) (by decide)
  rw [String.toList_append, List.mem_append] at hd
  rcases hd with hd | hd
  · exact .inl (hchars d hd)
  · have hend : d = '.' ∨ d = 'r' ∨ d = 's' := by simpa using hd
    rcases hend with rfl | rfl | rfl <;> decide

/-- The segments of the namespace, which are the directories of the module. -/
def Resolved.segments (r : Resolved) : List String := (r.space.map Name.segments).getD []

theorem Resolved.outputParts_eq (r : Resolved) : r.outputParts =
    if !r.segments.all Name.isIdentifier then .error (.noDirectory (r.space.getD "") r.name)
    else if !Name.isIdentifier r.moduleName then .error (.noFileName r.name)
    else .ok (r.segments ++ [r.moduleName ++ ".rs"]) := rfl

/-- A module has a place if the segments of its namespace and its own name are identifiers. -/
theorem Resolved.outputParts_eq_ok_iff {r : Resolved} : r.outputParts = .ok parts ↔
    (∀ segment ∈ r.segments, Name.isIdentifier segment) ∧ Name.isIdentifier r.moduleName ∧
      parts = r.segments ++ [r.moduleName ++ ".rs"] := by
  rw [outputParts_eq, ← List.all_eq_true]
  by_cases hsegments : r.segments.all Name.isIdentifier
  · by_cases hmodule : Name.isIdentifier r.moduleName
    · simp [hsegments, hmodule, eq_comm]
    · simp [hsegments, hmodule]
  · simp [hsegments]

/-- The place of a module has the name of a file, in directories with such names. -/
theorem Resolved.isPartName_of_outputParts {r : Resolved} (h : r.outputParts = .ok parts) :
    ∀ a ∈ parts, IsPartName a := by
  obtain ⟨hsegments, hmodule, rfl⟩ := outputParts_eq_ok_iff.mp h
  intro a ha
  rcases List.mem_append.mp ha with ha | ha
  · exact isPartName_of_isIdentifier (hsegments a ha)
  · exact List.mem_singleton.mp ha ▸ isPartName_fileName hmodule

theorem isPartName_of_deliverable (h : deliverable text = .ok (parts, code)) :
    ∃ directories file, parts = directories ++ [file] ∧ ∀ a ∈ parts, IsPartName a := by
  unfold deliverable at h
  split at h
  · simp at h
  rename_i p _
  cases hparts : (Resolved.ofProtocol p).outputParts with
  | error e => simp [hparts] at h
  | ok parts' =>
    obtain rfl : parts' = parts := by
      simp only [hparts, Except.ok.injEq, Prod.mk.injEq] at h
      exact h.1
    obtain ⟨-, -, heq⟩ := Resolved.outputParts_eq_ok_iff.mp hparts
    exact ⟨_, _, heq, Resolved.isPartName_of_outputParts hparts⟩

/-! ## Deliveries -/

/-- The ways of a delivery: how it ends and the tree that it leaves. -/
inductive Delivers (schemaFile output : String) (t : FileTree) :
    Except GenerationError String → FileTree → Prop
  /-- Nothing can be made of the file. -/
  | refused {e : GenerationError}
      (nothing : ∀ text made, t.readText schemaFile = .ok text → deliverable text ≠ .ok made) :
      Delivers schemaFile output t (.error e) t
  /-- There is no place for the code. -/
  | stuck {text code : String} {parts : List String} {e : FileTree.Error}
      (read : t.readText schemaFile = .ok text) (made : deliverable text = .ok (parts, code))
      (fails : (t.makeDirectories (Path.parent (joinAll output parts))).1 = .error e ∨
        (t.makeDirectories (Path.parent (joinAll output parts))).2.writeFile
          (joinAll output parts) code.toUTF8 = .error e) :
      Delivers schemaFile output t (.error (.io e))
        (t.makeDirectories (Path.parent (joinAll output parts))).2
  /-- The code is there already. -/
  | kept {text code : String} {parts : List String} (read : t.readText schemaFile = .ok text)
      (made : deliverable text = .ok (parts, code))
      (present : (t.makeDirectories (Path.parent (joinAll output parts))).2.readText
        (joinAll output parts) = .ok code) :
      Delivers schemaFile output t (.ok (joinAll output parts))
        (t.makeDirectories (Path.parent (joinAll output parts))).2
  /-- The code is written. -/
  | written {text code : String} {parts : List String} {u : FileTree}
      (read : t.readText schemaFile = .ok text) (made : deliverable text = .ok (parts, code))
      (writes : (t.makeDirectories (Path.parent (joinAll output parts))).2.writeFile
        (joinAll output parts) code.toUTF8 = .ok u) :
      Delivers schemaFile output t (.ok (joinAll output parts)) u

theorem writeText_cases {path : String} {answer : Except FileTree.Error Unit}
    (h : (Work.writeText path code).Does serve t asked answer u) :
    (answer = .ok () ∧ t.writeFile path code.toUTF8 = .ok u) ∨
      ∃ e, answer = .error e ∧ t.writeFile path code.toUTF8 = .error e ∧ u = t := by
  obtain ⟨-, rfl, rfl⟩ := h.of_request
  rw [serve]
  cases t.writeFile path code.toUTF8 with
  | error e => exact .inr ⟨e, rfl, rfl, rfl⟩
  | ok v => exact .inl ⟨rfl, rfl⟩

/-- A text is written unless it is there, and then nothing changes. -/
theorem writeChanged_cases {path : String} {answer : Except FileTree.Error Unit}
    (h : (writeChanged path code).Does serve t asked answer u) :
    (answer = .ok () ∧ t.readText path = .ok code ∧ u = t) ∨
      (answer = .ok () ∧ t.writeFile path code.toUTF8 = .ok u) ∨
      ∃ e, answer = .error e ∧ t.writeFile path code.toUTF8 = .error e ∧ u = t := by
  obtain ⟨_, present, s₁, _, -, hread, hrest⟩ := h.of_bind
  obtain ⟨-, hpresent, hs₁⟩ := hread.of_request
  obtain rfl : t = s₁ := hs₁.symm
  cases present with
  | error e => exact .inr (writeText_cases hrest)
  | ok text =>
    dsimp only at hrest
    split at hrest
    · rename_i heq
      obtain ⟨-, rfl, rfl⟩ := hrest.unique (Work.does_done serve _ t)
      exact .inl ⟨rfl, heq ▸ hpresent.symm, rfl⟩
    · exact .inr (writeText_cases hrest)

/-- A delivery takes one of these ways. -/
theorem delivers_of_does (h : (deliver schemaFile output).outcome.Does serve t asked result u) :
    Delivers schemaFile output t result u := by
  rcases Attempt.of_does_bind h with ⟨e, rfl, hread⟩ | ⟨_, text, s₁, _, -, hread, h₁⟩
  · obtain ⟨cause, -, hfailed⟩ := Attempt.of_does_of_error hread
    obtain ⟨-, unread, rfl⟩ := hfailed.of_request
    exact .refused fun _ _ read _ => by simp [serve, read] at unread
  obtain ⟨-, read, hs₁⟩ := (Attempt.of_does_of_ok hread).of_request
  obtain rfl : t = s₁ := hs₁.symm
  rcases Attempt.of_does_bind h₁ with ⟨e, rfl, hmade⟩ | ⟨_, ⟨parts, code⟩, s₂, _, -, hmade, h₂⟩
  · obtain ⟨-, unmade, rfl⟩ := Attempt.of_does_ofResult hmade
    refine .refused fun _ _ read' made => ?_
    obtain rfl := Except.ok.inj (read.trans read')
    simp [made] at unmade
  obtain ⟨-, made, hs₂⟩ := Attempt.of_does_ofResult hmade
  obtain rfl : t = s₂ := hs₂.symm
  rcases Attempt.of_does_bind h₂ with ⟨e, rfl, hdirs⟩ | ⟨_, _, s₃, _, -, hdirs, h₃⟩
  · obtain ⟨cause, rfl, hfailed⟩ := Attempt.of_does_of_error hdirs
    obtain ⟨-, fails, hu⟩ := hfailed.of_request
    rw [hu]
    exact .stuck read.symm made.symm (.inl fails.symm)
  rw [(Attempt.of_does_of_ok hdirs).of_request.2.2] at h₃
  rcases Attempt.of_does_bind h₃ with ⟨e, rfl, hwrite⟩ | ⟨_, _, s₄, _, -, hwrite, h₄⟩
  · obtain ⟨cause, rfl, hfailed⟩ := Attempt.of_does_of_error hwrite
    obtain ⟨⟨⟩, -⟩ | ⟨⟨⟩, -⟩ | ⟨_, ⟨⟩, fails, rfl⟩ := writeChanged_cases hfailed
    exact .stuck read.symm made.symm (.inr fails)
  · obtain ⟨-, rfl, rfl⟩ := h₄.unique (Attempt.does_pure serve _ s₄)
    obtain ⟨-, present, rfl⟩ | ⟨-, writes⟩ | ⟨_, ⟨⟩, -⟩ :=
      writeChanged_cases (Attempt.of_does_of_ok hwrite)
    · exact .kept read.symm made.symm present
    · exact .written read.symm made.symm writes

/-- A delivery goes well if there are a document and a place for its code. -/
theorem exists_does_deliver (read : t.readText schemaFile = .ok text)
    (made : deliverable text = .ok (parts, code))
    (directories : (t.makeDirectories (Path.parent (joinAll output parts))).1 = .ok ())
    (place : (t.makeDirectories (Path.parent (joinAll output parts))).2.locate .making
      (joinAll output parts) = .ok l)
    (free : (t.makeDirectories (Path.parent (joinAll output parts))).2.isDirectoryAt l = false) :
    ∃ asked u, (deliver schemaFile output).outcome.Does serve t asked (.ok (joinAll output parts))
      u := by
  have hdoes := Work.does_self serve (deliver schemaFile output).outcome t
  generalize (deliver schemaFile output).outcome.requests serve t = asked,
    ((deliver schemaFile output).outcome.run serve t).1 = result,
    ((deliver schemaFile output).outcome.run serve t).2 = u at hdoes
  have hsame {text' code' : String} {parts' : List String}
      (read' : t.readText schemaFile = .ok text')
      (made' : deliverable text' = .ok (parts', code')) : parts = parts' ∧ code = code' := by
    obtain rfl := Except.ok.inj (read.symm.trans read')
    exact Prod.mk.inj (Except.ok.inj (made.symm.trans made'))
  cases delivers_of_does hdoes with
  | refused nothing => exact absurd made (nothing text _ read)
  | stuck read' made' fails =>
    obtain ⟨rfl, rfl⟩ := hsame read' made'
    rcases fails with fails | fails
    · simp [directories] at fails
    · obtain ⟨v, hv⟩ := exists_writeFile_eq place free code.toUTF8
      rw [hv] at fails
      simp at fails
  | kept read' made' =>
    obtain ⟨rfl, -⟩ := hsame read' made'
    exact ⟨asked, _, hdoes⟩
  | written read' made' =>
    obtain ⟨rfl, -⟩ := hsame read' made'
    exact ⟨asked, u, hdoes⟩

/-- The same, where the parts of the delivery are evaluated. -/
theorem exists_does_deliver_of_toOption (text : String) (parts : List String) (l : Location)
    (read : (t.readText schemaFile).toOption = some text)
    (made : (deliverable text).toOption.map Prod.fst = some parts)
    (directories :
      (t.makeDirectories (Path.parent (joinAll output parts))).1.toOption = some ())
    (place : ((t.makeDirectories (Path.parent (joinAll output parts))).2.locate .making
      (joinAll output parts)).toOption = some l)
    (free : (t.makeDirectories (Path.parent (joinAll output parts))).2.isDirectoryAt l = false) :
    ∃ asked u, (deliver schemaFile output).outcome.Does serve t asked (.ok (joinAll output parts))
      u := by
  obtain ⟨⟨_, code⟩, hmade, rfl⟩ := Option.map_eq_some_iff.mp made
  exact exists_does_deliver (eq_ok_of_toOption read) (eq_ok_of_toOption hmade)
    (eq_ok_of_toOption directories) (eq_ok_of_toOption place) free

/-! ## Where deliveries are made -/

/-- A place on the way to what may be delivered below an output directory, in a tree with no
links but those of `t`. -/
def IsOnWay (t : FileTree) (output : String) (l : Location) : Prop :=
  ∃ (v : FileTree) (p : String) (parts : List String), v.WellFormed ∧ v.HasLinksOf t ∧
    (∀ a ∈ parts, IsName a) ∧ walked p <+: walked output ++ parts ∧ v.locate .target p = .ok l

theorem IsOnWay.of_hasLinksOf (h : IsOnWay u output l) (hlinks : u.HasLinksOf t) :
    IsOnWay t output l := by
  obtain ⟨v, p, parts, hv, hlinks', hnames, hstart, hl⟩ := h
  exact ⟨v, p, parts, hv, fun m target hm => hlinks m target (hlinks' m target hm), hnames, hstart,
    hl⟩

/-- The paths above what is delivered have the first of its names. -/
theorem walked_isPrefix_of_mem_parent {p : String} (hparts : ∀ a ∈ parts, IsName a)
    (h : p ∈ Path.parent (joinAll output parts) ::
      Path.above (Path.parent (joinAll output parts))) :
    walked p <+: walked output ++ parts := by
  rw [← Path.walked_joinAll hparts]
  exact (Path.walked_isPrefix_of_mem_cons_above h).trans (Path.walked_parent_isPrefix _)

theorem grows_makeDirectories_parent (ht : t.WellFormed) (hparts : ∀ a ∈ parts, IsName a) :
    Grows (IsOnWay t output) t (t.makeDirectories (Path.parent (joinAll output parts))).2 := by
  have hgrows := makeDirectories_grows ht (Path.parent (joinAll output parts))
  refine hgrows.mono fun l ⟨_, p, hp, hl⟩ => ?_
  exact ⟨_, p, parts, hgrows.changes.wellFormed ht, hgrows.changes.hasLinksOf, hparts,
    walked_isPrefix_of_mem_parent hparts hp, hl⟩

/-- **A delivery makes nothing that is not on the way to its code.** -/
theorem Delivers.grows (ht : t.WellFormed) (h : Delivers schemaFile output t result u) :
    Grows (IsOnWay t output) t u := by
  have hnames {text code : String} {parts : List String}
      (made : deliverable text = .ok (parts, code)) : ∀ a ∈ parts, IsName a := by
    obtain ⟨_, _, -, hparts⟩ := isPartName_of_deliverable made
    exact fun a ha => (hparts a ha).1
  cases h with
  | refused => exact .refl
  | stuck _ made | kept _ made => exact grows_makeDirectories_parent ht (hnames made)
  | @written text code parts _ _ made writes =>
    have hgrows : Grows (IsOnWay t output) t _ := grows_makeDirectories_parent ht (hnames made)
    have hv := hgrows.changes.wellFormed ht
    obtain ⟨l, hl, hadds, -⟩ := writeFile_adds hv writes
    obtain ⟨hcheck, way, hway⟩ := locate_eq_ok_iff.mp hl
    refine hgrows.tail ⟨l, ⟨_, joinAll output parts, parts, hv, hgrows.changes.hasLinksOf,
      hnames made, (Path.walked_joinAll (hnames made)).symm ▸ List.prefix_rfl,
      locate_eq_ok_iff.mpr ⟨hcheck, way, hway.target_of_making⟩⟩, hadds⟩

/-- **After a delivery its path leads to its code, and the texts of all other files are what
they were.** -/
theorem Delivers.hasText (ht : t.WellFormed) (h : Delivers schemaFile output t (.ok target) u) :
    ∃ text parts code l, t.readText schemaFile = .ok text ∧
      deliverable text = .ok (parts, code) ∧ target = joinAll output parts ∧
      u.locate .target target = .ok l ∧ u.HasText l code ∧
      ∀ m ≠ l, ∀ other, u.HasText m other ↔ t.HasText m other := by
  cases h with
  | @kept text code parts read made present =>
    obtain ⟨l, hl, htext⟩ := readText_eq_ok_iff.mp present
    exact ⟨text, parts, code, l, read, made, rfl, hl, htext,
      fun m _ other => hasText_makeDirectories ht _ m other⟩
  | @written text code parts _ read made writes =>
    have hv := (makeDirectories_changes ht (Path.parent (joinAll output parts))).wellFormed ht
    obtain ⟨l, -, hadds, hl, htext⟩ := writeFile_hasText hv writes
    refine ⟨text, parts, code, l, read, made, rfl, hl, htext, fun m hm other => ?_⟩
    rw [hasText_of_entryAt?_eq (hadds.entryAt?_of_ne hm), hasText_makeDirectories ht]

end IdlCompiler
