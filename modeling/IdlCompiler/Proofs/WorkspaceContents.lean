/-
# What a batch leaves in its workspace

A batch puts the canonical document of every interface definition into its workspace, under the
path of the definition with another extension.  With a generator that leaves the workspace alone
the workspace has these documents in the end, and no other files.  A document finds its place
among the others unless one is in the way of the other.

Main statements: `Fills.concat`, one more source; `fills_of_does_compile`, a whole batch;
`compile_fills_workspace`, what the workspace has in the end; and `coexist_iff_accepts`, which
documents are in each other's way.
-/
import IdlCompiler.Proofs.LoweredPaths
import IdlCompiler.Proofs.Placements
import IdlCompiler.Proofs.Recompilation

namespace IdlCompiler.Build

open FileTree
open IdlCompiler.Path (IsName joinAll)

variable {t u v opened : FileTree} {place l : Location} {workspace output text : String}
  {way : List Location} {steps : Steps} {asked : List Request} {file : Candidate}
  {files : List Candidate} {protocol : Protocol}

/-! ## Places of documents -/

/-- The names that lead to the document of a definition, below the workspace. -/
@[irreducible]
def loweredNames (file : Candidate) : List String := Path.rawNames (loweredPath file.relative)

/-- The document of a definition has the names of its source but for the last. -/
theorem HasRelativePath.exists_loweredNames_eq (h : HasRelativePath file) : ∃ directory name,
    file.relative = relativePath (directory ++ [name]) ∧ (∀ a ∈ directory ++ [name], IsName a) ∧
      loweredNames file = directory ++ [String.ofList (loweredName name.toList)] ∧
      ∀ a ∈ loweredNames file, IsName a := by
  obtain ⟨names, hne, hnames, hrelative⟩ := h
  obtain ⟨directory, name, rfl⟩ := (List.eq_nil_or_concat' names).resolve_left hne
  have hname := hnames name (by simp)
  have hlowered : ∀ a ∈ directory ++ [String.ofList (loweredName name.toList)], IsName a := by
    intro a ha
    rcases List.mem_append.mp ha with ha | ha
    · exact hnames a (List.mem_append_left _ ha)
    · exact List.mem_singleton.mp ha ▸ isName_loweredName hname
  have heq : loweredNames file = directory ++ [String.ofList (loweredName name.toList)] := by
    rw [loweredNames, hrelative, loweredPath_relativePath hname]
    exact Path.rawNames_intercalate (by simp) fun a ha => (hlowered a ha).noSlash
  exact ⟨directory, name, hrelative, hnames, heq, heq ▸ hlowered⟩

theorem HasRelativePath.isName_of_mem_loweredNames (h : HasRelativePath file) :
    ∀ a ∈ loweredNames file, IsName a := by
  obtain ⟨_, _, -, -, -, hnames⟩ := h.exists_loweredNames_eq
  exact hnames

theorem HasRelativePath.loweredNames_ne_nil (h : HasRelativePath file) :
    loweredNames file ≠ [] := by
  obtain ⟨_, _, -, -, heq, -⟩ := h.exists_loweredNames_eq
  simp [heq]

theorem HasRelativePath.loweredPath_eq (h : HasRelativePath file) :
    loweredPath file.relative = relativePath (loweredNames file) := by
  obtain ⟨_, _, hrelative, hnames, heq, -⟩ := h.exists_loweredNames_eq
  rw [hrelative, loweredPath_relativePath (hnames _ (by simp)), heq]

theorem HasRelativePath.loweredFile_eq (h : HasRelativePath file) (workspace : String) :
    loweredFile workspace file = joinAll workspace (loweredNames file) := by
  rw [loweredFile, h.loweredPath_eq,
    join_relativePath workspace h.loweredNames_ne_nil h.isName_of_mem_loweredNames]

theorem HasRelativePath.hasFinalSlash_loweredFile (h : HasRelativePath file) (workspace : String) :
    Path.hasFinalSlash (loweredFile workspace file) = false := by
  obtain ⟨_, _, -, -, heq, hnames⟩ := h.exists_loweredNames_eq
  rw [h.loweredFile_eq, heq]
  exact Path.hasFinalSlash_joinAll _ _ (hnames _ (by simp [heq]))

theorem HasRelativePath.endsInName (h : HasRelativePath file) : EndsInName file.relative := by
  obtain ⟨names, hne, hnames, hrelative⟩ := h
  exact hrelative ▸ endsInName_relativePath hne hnames

/-- Definitions with different paths have documents at different places. -/
theorem HasRelativePath.relative_eq_of_loweredNames {other : Candidate} (h : HasRelativePath file)
    (h' : HasRelativePath other) (hstage : Stage.ofPath file.relative = .interfaceDefinition)
    (hstage' : Stage.ofPath other.relative = .interfaceDefinition)
    (heq : loweredNames file = loweredNames other) : file.relative = other.relative :=
  loweredPath_inj h.endsInName h'.endsInName hstage hstage'
    (by rw [h.loweredPath_eq, h'.loweredPath_eq, heq])

/-- The path of a document leads down from the workspace. -/
theorem HasRelativePath.leadsOn (h : HasRelativePath file)
    (hworkspace : t.IsWorkspace workspace place way) :
    t.LeadsOn (loweredFile workspace file) place (loweredNames file) := by
  rw [h.loweredFile_eq]
  exact hworkspace.leadsOn h.isName_of_mem_loweredNames

/-- A definition and the document that it is lowered to, with its place in the workspace. -/
def documentPlacement (place : Location) (file : Candidate) (document : String) : Placement :=
  ⟨place, loweredNames file, document⟩

/-! ## Lowering a source -/

/-- The calls that lower a source. -/
def loweringLog (workspace : String) (file : Candidate) (text : String) (protocol : Protocol) :
    List Reply := [
  ⟨.read file.path, .ok text⟩,
  ⟨.lower text, .ok protocol⟩,
  ⟨.makeDirectories (Path.parent (loweredFile workspace file)), .ok ()⟩,
  ⟨.write (loweredFile workspace file) protocol.canonicalText, .ok ()⟩]

theorem sourceLog_of_definition (hstage : Stage.ofPath file.relative = .interfaceDefinition) :
    sourceLog workspace output file text protocol = loweringLog workspace file text protocol ++
      [⟨.generate (loweredFile workspace file) output, .ok ()⟩] := by
  rw [sourceLog, hstage]
  rfl

theorem sourceLog_of_schema (hstage : Stage.ofPath file.relative = .canonicalSchema) :
    sourceLog workspace output file text protocol = [⟨.generate file.path output, .ok ()⟩] := by
  rw [sourceLog, hstage]

/-- Lowering a source puts its canonical document into the workspace. -/
theorem puts_of_logged (ht : t.WellFormed) (hworkspace : t.IsWorkspace workspace place way)
    (hfile : HasRelativePath file)
    (h : Logged steps serve (loweringLog workspace file text protocol) t asked u) :
    t.readText file.path = .ok text ∧ steps.lower text = .ok protocol ∧
      t.Accepts (loweredFile workspace file) ∧
      t.Puts (documentPlacement place file protocol.canonicalText) u := by
  obtain _ | ⟨hread, _ | ⟨hlower, _ | ⟨hmake, _ | ⟨hwrite, ⟨⟩⟩⟩⟩⟩ := h
  obtain ⟨read, rfl⟩ := readText_eq_of_does hread
  obtain ⟨-, lower, rfl⟩ := Attempt.of_does_ofResult hlower
  have hmade := makeDirectories_eq_of_does hmake
  have hwritten := writeFile_eq_of_does hwrite
  obtain ⟨hok, rfl⟩ := Prod.ext_iff.mp hmade
  have haccepts : FileTree.Accepts _ (loweredFile workspace file) :=
    ⟨hok, _, _, hwritten⟩
  obtain ⟨_, _, -, -, heq, -⟩ := hfile.exists_loweredNames_eq
  have hroom := ((heq ▸ hfile.leadsOn hworkspace).accepts_iff_hasRoomFor ht
    (hfile.hasFinalSlash_loweredFile workspace)).mp haccepts
  refine ⟨read, eq_ok_of_mapError lower.symm, haccepts, ?_⟩
  rw [documentPlacement, heq]
  exact (hroom.puts ht hwritten).1

/-- In trees with no links but those of `t` a generator leaves the workspace alone: its path goes
on leading to it, and what stands there stays the same. -/
def Steps.LeaveAlone (steps : Steps) (workspace output : String) (t : FileTree) : Prop :=
  ∀ u schemaFile asked result v place way, u.WellFormed → u.HasLinksOf t →
    u.IsWorkspace workspace place way →
    (steps.generate schemaFile output).outcome.Does serve u asked result v →
      (∃ way', v.IsWorkspace workspace place way') ∧
        ∀ l, place <+: l → v.entryAt? l = u.entryAt? l

/-! ## Sources one after the other -/

theorem exists_of_forall₂_concat {α β : Type} {R : α → β → Prop} {as : List α} {a : α}
    {bs : List β} (h : List.Forall₂ R (as ++ [a]) bs) :
    ∃ init b, List.Forall₂ R as init ∧ R a b ∧ bs = init ++ [b] := by
  rw [← List.forall₂_reverse_iff, List.reverse_concat, List.forall₂_cons_left_iff] at h
  obtain ⟨b, rest, hab, hrest, hbs⟩ := h
  refine ⟨rest.reverse, b, ?_, hab, by rw [← List.reverse_cons, ← hbs, List.reverse_reverse]⟩
  rwa [← List.forall₂_reverse_iff, List.reverse_reverse]

/-- The last source of a batch is compiled after the others. -/
theorem of_does_compile_concat {compiled : List CompiledFile}
    (h : (compile steps workspace output (files ++ [file])).Does serve t asked (.success compiled)
      u) : ∃ first v log more,
      (compile steps workspace output files).Does serve t first
        (.success (files.map (compiledFile workspace))) v ∧
      Completes workspace output file log ∧ Logged steps serve log v more u := by
  obtain ⟨log, _, outcome, _, hlog, hdoes, hbatch⟩ :=
    exists_log_compile steps serve workspace output (files ++ [file]) t
  obtain ⟨-, houtcome, rfl⟩ := h.unique hdoes
  cases hbatch with
  | failure => simp at houtcome
  | success complete log_eq =>
    obtain ⟨logs, last, hlogs, hlast, rfl⟩ := exists_of_forall₂_concat complete
    rw [log_eq, List.flatten_append, List.flatten_singleton] at hlog
    obtain ⟨first, v, more, -, hfirst, hrest⟩ := hlog.of_append
    exact ⟨first, v, last, more, does_compile_of_logged hlogs hfirst, hlast, hrest⟩

/-- The document of a definition: what its text is lowered to that it has when its turn comes,
after the sources before it. -/
def IsDocument (steps : Steps) (workspace output : String) (opened : FileTree)
    (before : List Candidate) (file : Candidate) (document : String) : Prop :=
  ∃ asked v text protocol, (compile steps workspace output before).Does serve opened asked
      (.success (before.map (compiledFile workspace))) v ∧
    v.readText file.path = .ok text ∧ steps.lower text = .ok protocol ∧
      document = protocol.canonicalText

/-- A workspace after sources have been compiled: it has the documents of the definitions. -/
structure Fills (steps : Steps) (workspace output : String) (place : Location)
    (opened : FileTree) (files : List Candidate) (ps : List Placement) (u : FileTree) : Prop where
  isWorkspace : ∃ way, u.IsWorkspace workspace place way
  changes : Changes opened u
  carries : Carries (place <+: ·) opened ps u
  documents : ∀ before file, before ++ [file] <+: files →
    Stage.ofPath file.relative = .interfaceDefinition →
    checkPath (loweredFile workspace file) = .ok () ∧
      (∀ a ∈ loweredNames file, a.utf8ByteSize ≤ maxNameSize) ∧
      ∃ document, documentPlacement place file document ∈ ps ∧
        IsDocument steps workspace output opened before file document
  only : ∀ p ∈ ps, ∃ file ∈ files, Stage.ofPath file.relative = .interfaceDefinition ∧
    ∃ document, p = documentPlacement place file document

namespace Fills

variable {ps : List Placement}

theorem below (h : Fills steps workspace output place opened files ps u) :
    ∀ p ∈ ps, place <+: p.place ∧ ∀ l, p.IsAbove l → place <+: l := by
  intro p hp
  obtain ⟨file, -, -, document, rfl⟩ := h.only p hp
  exact ⟨List.prefix_append .., fun _ ⟨_, _, _, hl⟩ => hl ▸ List.prefix_append ..⟩

/-- Generating code keeps the documents. -/
theorem generate {schemaFile : String} {result : Except FailureCause Unit}
    (hopened : opened.WellFormed) (hsteps : steps.LeaveAlone workspace output opened)
    (h : Fills steps workspace output place opened files ps u)
    (hdoes : ((Call.generate schemaFile output).perform steps).outcome.Does serve u asked result
      v) : Fills steps workspace output place opened files ps v := by
  obtain ⟨_, -, hdoes⟩ := Attempt.of_does_adapt hdoes
  obtain ⟨way, hway⟩ := h.isWorkspace
  have hu := h.changes.wellFormed hopened
  obtain ⟨hworkspace, hsame⟩ :=
    hsteps u schemaFile _ _ v place way hu h.changes.hasLinksOf hway hdoes
  exact ⟨hworkspace, h.changes.trans (changes_of_does hu hdoes), h.carries.congr h.below hsame,
    h.documents, h.only⟩

/-- A source that is no definition has no document. -/
theorem concat_schema (h : Fills steps workspace output place opened files ps u)
    (hstage : Stage.ofPath file.relative = .canonicalSchema) :
    Fills steps workspace output place opened (files ++ [file]) ps u := by
  refine ⟨h.isWorkspace, h.changes, h.carries, fun before f hfront hdefinition => ?_,
    fun p hp => ?_⟩
  · rcases List.prefix_concat_iff.mp hfront with heq | hfront
    · obtain ⟨-, rfl⟩ := List.append_singleton_inj.mp heq
      simp [hstage] at hdefinition
    · exact h.documents before f hfront hdefinition
  · obtain ⟨f, hf, hrest⟩ := h.only p hp
    exact ⟨f, List.mem_append_left _ hf, hrest⟩

/-- **Lowering one more source puts its document into the workspace** and leaves the others where
they are. -/
theorem concat_definition {first : List Request} (hopened : opened.WellFormed)
    (hfile : HasRelativePath file) (hfiles : ∀ f ∈ files, HasRelativePath f)
    (hnew : ∀ f ∈ files, f.relative ≠ file.relative)
    (hstage : Stage.ofPath file.relative = .interfaceDefinition)
    (h : Fills steps workspace output place opened files ps u)
    (hbefore : (compile steps workspace output files).Does serve opened first
      (.success (files.map (compiledFile workspace))) u)
    (hlog : Logged steps serve (loweringLog workspace file text protocol) u asked v) :
    Fills steps workspace output place opened (files ++ [file])
      (documentPlacement place file protocol.canonicalText :: ps) v := by
  obtain ⟨way, hway⟩ := h.isWorkspace
  have hu := h.changes.wellFormed hopened
  obtain ⟨hread, hlower, haccepts, hputs⟩ := puts_of_logged hu hway hfile hlog
  obtain ⟨hcheck, hshort, -⟩ := ((hfile.leadsOn hway).accepts_iff hu hfile.loweredNames_ne_nil
    (hfile.hasFinalSlash_loweredFile workspace)).mp haccepts
  have hdifferent : ∀ q ∈ ps,
      q.place ≠ (documentPlacement place file protocol.canonicalText).place := by
    intro q hq heq
    obtain ⟨f, hf, hdefinition, document, rfl⟩ := h.only q hq
    have hnames : loweredNames f = loweredNames file := List.append_cancel_left heq
    exact hnew f hf ((hfiles f hf).relative_eq_of_loweredNames hfile hdefinition hstage hnames)
  refine ⟨⟨way, hway.of_grows hputs.grows⟩, h.changes.trans hputs.grows.changes,
    h.carries.cons hputs hdifferent, fun before f hfront hdefinition => ?_,
    List.forall_mem_cons.mpr ⟨⟨file, by simp, hstage, _, rfl⟩, fun p hp => ?_⟩⟩
  · rcases List.prefix_concat_iff.mp hfront with heq | hfront
    · obtain ⟨rfl, rfl⟩ := List.append_singleton_inj.mp heq
      exact ⟨hcheck, hshort, _, List.mem_cons_self, first, u, text, protocol, hbefore, hread,
        hlower, rfl⟩
    · obtain ⟨hcheck', hshort', document, hmem, hdocument⟩ :=
        h.documents before f hfront hdefinition
      exact ⟨hcheck', hshort', document, List.mem_cons_of_mem _ hmem, hdocument⟩
  · obtain ⟨f, hf, hrest⟩ := h.only p hp
    exact ⟨f, List.mem_append_left _ hf, hrest⟩

theorem exists_mem (h : Fills steps workspace output place opened files ps u)
    (hfile : file ∈ files) (hstage : Stage.ofPath file.relative = .interfaceDefinition) :
    ∃ document, documentPlacement place file document ∈ ps := by
  obtain ⟨before, after, rfl⟩ := List.append_of_mem hfile
  obtain ⟨-, -, document, hmem, -⟩ := h.documents before file ⟨after, by simp⟩ hstage
  exact ⟨document, hmem⟩

end Fills

/-! ## All sources of a batch -/

/-- **After a batch the workspace has the documents of its definitions.** -/
theorem fills_of_does_compile (hopened : opened.WellFormed)
    (hworkspace : opened.IsWorkspace workspace place way)
    (hsteps : steps.LeaveAlone workspace output opened)
    (hfiles : ∀ file ∈ files, HasRelativePath file)
    (hdistinct : (files.map Candidate.relative).Nodup) {compiled : List CompiledFile}
    (h : (compile steps workspace output files).Does serve opened asked (.success compiled) u) :
    ∃ ps, Fills steps workspace output place opened files ps u := by
  induction files using List.reverseRecOn generalizing u asked compiled with
  | nil =>
    obtain ⟨-, -, rfl⟩ := h.unique (Work.does_done serve _ opened)
    exact ⟨[], ⟨⟨way, hworkspace⟩, .refl, .nil _ _, by simp, by simp⟩⟩
  | append_singleton files file ih =>
    obtain ⟨first, v, log, more, hbefore, ⟨text, protocol, rfl⟩, hlog⟩ := of_does_compile_concat h
    obtain ⟨hstart, hfile⟩ := List.forall_mem_append.mp hfiles
    rw [List.map_append, List.nodup_append] at hdistinct
    obtain ⟨hnodup, -, hnew⟩ := hdistinct
    have hnew (f : Candidate) (hf : f ∈ files) : f.relative ≠ file.relative :=
      hnew _ (List.mem_map_of_mem hf) _ (by simp)
    obtain ⟨ps, hfills⟩ := ih hstart hnodup hbefore
    cases hstage : Stage.ofPath file.relative with
    | canonicalSchema =>
      rw [sourceLog_of_schema hstage] at hlog
      obtain _ | ⟨hgenerate, ⟨⟩⟩ := hlog
      exact ⟨ps, (hfills.concat_schema hstage).generate hopened hsteps hgenerate⟩
    | interfaceDefinition =>
      rw [sourceLog_of_definition hstage] at hlog
      obtain ⟨_, w, _, -, hlowering, hlast⟩ := hlog.of_append
      obtain _ | ⟨hgenerate, ⟨⟩⟩ := hlast
      have hlowered := hfills.concat_definition hopened (hfile file (by simp)) hstart hnew hstage
        hbefore hlowering
      exact ⟨_, hlowered.generate hopened hsteps hgenerate⟩

/-- A workspace with nothing in it. -/
structure IsBareWorkspace (t : FileTree) (path : String) (place : Location) (way : List Location) :
    Prop where
  isWorkspace : t.IsWorkspace path place way
  bare : ∀ l, place <+: l → l ≠ place → t.entryAt? l = none

theorem exists_isBareWorkspace {root : String} (ht : t.WellFormed)
    (hfresh : t.makeFresh root = .ok (workspace, opened)) :
    opened.WellFormed ∧ ∃ place way, IsBareWorkspace opened workspace place way := by
  obtain ⟨d, n, way, -, hworkspace, hadds, hvacant, -⟩ := isWorkspace_of_makeFresh ht hfresh
  refine ⟨hadds.wellFormed ht, _, way, hworkspace, fun l hl hne => ?_⟩
  rw [hadds.entryAt?_of_ne hne, hvacant l hl]

theorem IsBareWorkspace.not_isFileAt (h : IsBareWorkspace opened workspace place way)
    (hl : place <+: l) : ¬ opened.IsFileAt l := by
  by_cases heq : l = place
  · exact not_isFileAt_of_directory (heq ▸ h.isWorkspace.directory)
  · rintro ⟨content, modified, hentry⟩
    simp [h.bare l hl heq] at hentry

/-- The documents are the only files. -/
theorem Fills.isFileAt_iff {ps : List Placement}
    (hopened : IsBareWorkspace opened workspace place way)
    (h : Fills steps workspace output place opened files ps u) (names : List String) :
    u.IsFileAt (place ++ names) ↔ ∃ f ∈ files,
      Stage.ofPath f.relative = .interfaceDefinition ∧ names = loweredNames f := by
  constructor
  · intro hfile
    have hbelow : place <+: place ++ names := List.prefix_append ..
    obtain ⟨p, hp, heq, -⟩ | ⟨_, -, -, hdirectory⟩ | ⟨-, heq⟩ := h.carries.cases hbelow
    · obtain ⟨f, hf, hdefinition, document, rfl⟩ := h.only p hp
      exact ⟨f, hf, hdefinition, List.append_cancel_left heq⟩
    · exact absurd hfile (not_isFileAt_of_directory hdirectory)
    · rw [IsFileAt, heq] at hfile
      exact absurd hfile (hopened.not_isFileAt hbelow)
  · rintro ⟨f, hf, hdefinition, rfl⟩
    obtain ⟨document, hmem⟩ := h.exists_mem hf hdefinition
    exact isFileAt_of_hasText (h.carries.hasText _ hmem)

/-- The directories above the documents are the only directories. -/
theorem Fills.directory_iff {ps : List Placement} {names : List String}
    (hopened : IsBareWorkspace opened workspace place way)
    (h : Fills steps workspace output place opened files ps u) (hne : names ≠ []) :
    u.entryAt? (place ++ names) = some .directory ↔ ∃ f ∈ files,
      Stage.ofPath f.relative = .interfaceDefinition ∧ names <+: loweredNames f ∧
        names ≠ loweredNames f := by
  constructor
  · intro hdirectory
    have hbelow : place <+: place ++ names := List.prefix_append ..
    obtain ⟨_, -, -, htext⟩ | ⟨p, hp, habove, -⟩ | ⟨-, heq⟩ := h.carries.cases hbelow
    · exact absurd (isFileAt_of_hasText htext) (not_isFileAt_of_directory hdirectory)
    · obtain ⟨f, hf, hdefinition, document, rfl⟩ := h.only p hp
      obtain ⟨start, hstart, hshorter, heq⟩ := habove
      have hnames : names = start := List.append_cancel_left heq
      rw [hnames]
      exact ⟨f, hf, hdefinition, hstart, hshorter⟩
    · rw [heq, hopened.bare _ hbelow (by simpa using hne)] at hdirectory
      simp at hdirectory
  · rintro ⟨f, hf, hdefinition, hfront, hshorter⟩
    obtain ⟨document, hmem⟩ := h.exists_mem hf hdefinition
    exact h.carries.directories _ hmem _ ⟨names, hfront, hshorter, rfl⟩

/-- A tree with a text that may be taken for anything. -/
def draftTree : FileTree where
  entries := [(["a.idl"], .file "draft".toUTF8 0)]

/-- `draftTree` with a directory for a batch. -/
def openedDraftTree : FileTree := draftTree.put ["run-000000"] .directory

/-- Steps that take every text for the same protocol and generate nothing. -/
def draftSteps : Steps where
  lower _ := .ok (.empty "A" none)
  generate _ _ := pure ()

/-- The source in `draftTree`. -/
def draft : Candidate := ⟨"a.idl", "a.idl"⟩

theorem wellFormed_draftTree : draftTree.WellFormed :=
  wellFormed_of_hasRoom (by decide)

theorem makeFresh_draftTree : draftTree.makeFresh "" = .ok ("run-000000", openedDraftTree) := by
  rfl

theorem leaveAlone_draftSteps (t : FileTree) : draftSteps.LeaveAlone workspace output t := by
  intro u schemaFile asked result v place way _ _ hway hdoes
  obtain ⟨-, -, rfl⟩ := hdoes.unique (Attempt.does_pure serve () u)
  exact ⟨⟨way, hway⟩, fun _ _ => rfl⟩

theorem hasRelativePath_draft : HasRelativePath draft :=
  ⟨["a.idl"], by simp, by decide, (relativePath_singleton _).symm⟩

theorem exists_does_compile_draft : ∃ asked u,
    (compile draftSteps "run-000000" "out" [draft]).Does serve openedDraftTree asked
      (.success [compiledFile "run-000000" draft]) u := by
  have hdraft : (compileSource draftSteps "run-000000" "out" draft).outcome.Does serve
      openedDraftTree _ (.ok (compiledFile "run-000000" draft)) _ :=
    Attempt.does_of_toOption (by decide +kernel)
  exact ⟨_, _, does_compile_cons hdraft (does_compile_nil _ _ _ _)⟩

theorem HasRelativePath.leadsAbove_iff {other : Candidate} (h : HasRelativePath file)
    (h' : HasRelativePath other)
    (hstage' : Stage.ofPath other.relative = .interfaceDefinition) :
    LeadsAbove (loweredPath file.relative) other.relative ↔
      loweredNames file <+: loweredNames other ∧ loweredNames file ≠ loweredNames other := by
  rw [← leadsAbove_loweredPath_iff h'.endsInName hstage', h.loweredPath_eq, h'.loweredPath_eq]
  exact leadsAbove_relativePath_iff h.loweredNames_ne_nil h'.loweredNames_ne_nil
    h.isName_of_mem_loweredNames h'.isName_of_mem_loweredNames

/-- In a workspace with nothing in it a document finds its place if its path is not too long. -/
theorem IsBareWorkspace.accepts_iff (h : IsBareWorkspace opened workspace place way)
    (hopened : opened.WellFormed) (hfile : HasRelativePath file) :
    opened.Accepts (loweredFile workspace file) ↔
      checkPath (loweredFile workspace file) = .ok () ∧
        ∀ a ∈ loweredNames file, a.utf8ByteSize ≤ maxNameSize := by
  rw [(hfile.leadsOn h.isWorkspace).accepts_iff hopened hfile.loweredNames_ne_nil
    (hfile.hasFinalSlash_loweredFile workspace)]
  have hvacant : opened.entryAt? (place ++ loweredNames file) = none :=
    h.bare _ (List.prefix_append ..) (by simpa using hfile.loweredNames_ne_nil)
  constructor
  · rintro ⟨hcheck, hshort, -⟩
    exact ⟨hcheck, hshort⟩
  · rintro ⟨hcheck, hshort⟩
    refine ⟨hcheck, hshort, fun l ⟨start, _, _, hl⟩ => ?_, by simp [hvacant]⟩
    exact h.not_isFileAt (hl ▸ List.prefix_append ..)

/-- A document finds its place among others if it finds it alone and none is in the way of
another one. -/
theorem Fills.accepts_iff {ps : List Placement} (hopened : opened.WellFormed)
    (hbare : IsBareWorkspace opened workspace place way)
    (hfiles : ∀ f ∈ files, HasRelativePath f) (hfile : HasRelativePath file)
    (hstage : Stage.ofPath file.relative = .interfaceDefinition)
    (h : Fills steps workspace output place opened files ps u) :
    u.Accepts (loweredFile workspace file) ↔ opened.Accepts (loweredFile workspace file) ∧
      ∀ f ∈ files, Stage.ofPath f.relative = .interfaceDefinition →
        ¬ LeadsAbove (loweredPath f.relative) file.relative ∧
          ¬ LeadsAbove (loweredPath file.relative) f.relative := by
  obtain ⟨way', hway⟩ := h.isWorkspace
  have hne := hfile.loweredNames_ne_nil
  rw [(hfile.leadsOn hway).accepts_iff (h.changes.wellFormed hopened) hne
    (hfile.hasFinalSlash_loweredFile workspace), hbare.accepts_iff hopened hfile, ne_eq,
    h.directory_iff hbare hne, and_assoc]
  refine and_congr_right fun _ => and_congr_right fun _ => ⟨?_, fun hclear => ⟨?_, ?_⟩⟩
  · rintro ⟨hclear, hfree⟩ f hf hdefinition
    rw [(hfiles f hf).leadsAbove_iff hfile hstage, hfile.leadsAbove_iff (hfiles f hf) hdefinition]
    refine ⟨fun ⟨hfront, hshorter⟩ => ?_, fun habove => hfree ⟨f, hf, hdefinition, habove⟩⟩
    exact hclear _ ⟨_, hfront, hshorter, rfl⟩
      ((h.isFileAt_iff hbare _).mpr ⟨f, hf, hdefinition, rfl⟩)
  · rintro _ ⟨start, hstart, hshorter, rfl⟩ hblocked
    obtain ⟨f, hf, hdefinition, hnames⟩ := (h.isFileAt_iff hbare start).mp hblocked
    refine (hclear f hf hdefinition).1 (((hfiles f hf).leadsAbove_iff hfile hstage).mpr ?_)
    rw [← hnames]
    exact ⟨hstart, hshorter⟩
  · rintro ⟨f, hf, hdefinition, habove⟩
    exact (hclear f hf hdefinition).2
      ((hfile.leadsAbove_iff (hfiles f hf) hdefinition).mpr habove)

/-- **Documents have different places, and they are in each other's way only where one has the
name of a directory that the source of the other is in.**  Then the one that is lowered later
finds no place. -/
theorem coexist_iff_accepts {paths : List String} (hpaths : ∀ p ∈ paths, EndsInName p)
    (hstages : ∀ p ∈ paths, Stage.ofPath p = .interfaceDefinition) (h : Coexist paths) :
    (paths.map loweredPath).Nodup ∧
    (Coexist (paths.map loweredPath) ↔ ∀ p ∈ paths, ∀ q ∈ paths, ¬ LeadsAbove (loweredPath p) q) ∧
    ∀ (steps : Steps) (t opened u : FileTree) (root workspace output : String)
      (files : List Candidate) (asked : List Request) (compiled : List CompiledFile),
      t.WellFormed → t.makeFresh root = .ok (workspace, opened) →
      (∀ file ∈ files, HasRelativePath file) → (files.map Candidate.relative).Nodup →
      steps.LeaveAlone workspace output opened →
      (compile steps workspace output files).Does serve opened asked (.success compiled) u →
      ∀ file, HasRelativePath file → file.relative ∈ paths →
        (u.Accepts (loweredFile workspace file) ↔ opened.Accepts (loweredFile workspace file) ∧
          ∀ f ∈ files, Stage.ofPath f.relative = .interfaceDefinition →
            ¬ LeadsAbove (loweredPath f.relative) file.relative ∧
              ¬ LeadsAbove (loweredPath file.relative) f.relative) := by
  obtain ⟨hnodup, hcoexist⟩ := coexist_loweredPath_iff hpaths hstages h
  refine ⟨hnodup, hcoexist, ?_⟩
  intro steps t opened u root workspace output files asked compiled ht hfresh hfiles hdistinct
    hsteps hdoes file hfile hmem
  obtain ⟨hopened, place, way, hbare⟩ := exists_isBareWorkspace ht hfresh
  obtain ⟨ps, hfills⟩ :=
    fills_of_does_compile hopened hbare.isWorkspace hsteps hfiles hdistinct hdoes
  exact hfills.accepts_iff hopened hbare hfiles hfile (hstages _ hmem)

/-- A source in a directory that has the name of the document of `draft`. -/
def hiddenDraft : Candidate := ⟨"a.schema/b.idl", "a.schema/b.idl"⟩

theorem hasRelativePath_hiddenDraft : HasRelativePath hiddenDraft :=
  ⟨["a.schema", "b.idl"], by simp, by decide, by decide⟩

/-- Two definitions stand in one tree, and their documents cannot: the document of `draft` is in
the way of the other one. -/
theorem draft_in_the_way : Coexist ["a.idl", "a.schema/b.idl"] ∧
    ¬ Coexist (["a.idl", "a.schema/b.idl"].map loweredPath) ∧
    openedDraftTree.Accepts "run-000000/a.schema/b.schema" ∧
    ∃ asked u, (compile draftSteps "run-000000" "out" [draft]).Does serve openedDraftTree asked
        (.success [compiledFile "run-000000" draft]) u ∧
      ¬ u.Accepts "run-000000/a.schema/b.schema" := by
  obtain ⟨asked, u, hdoes⟩ := exists_does_compile_draft
  have hsources : Coexist ["a.idl", "a.schema/b.idl"] :=
    ⟨by decide, by simp only [LeadsAbove]; decide +kernel⟩
  have habove : LeadsAbove (loweredPath "a.idl") "a.schema/b.idl" := by
    rw [LeadsAbove]
    decide +kernel
  have hends : ∀ p ∈ ["a.idl", "a.schema/b.idl"], EndsInName p := by
    simpa using ⟨hasRelativePath_draft.endsInName, hasRelativePath_hiddenDraft.endsInName⟩
  obtain ⟨-, hlowered, haccepts⟩ := coexist_iff_accepts hends (by decide +kernel) hsources
  have htarget : loweredFile "run-000000" hiddenDraft = "run-000000/a.schema/b.schema" := by
    decide +kernel
  have hplace := haccepts draftSteps draftTree openedDraftTree u "" "run-000000" "out" [draft] asked
    _ wellFormed_draftTree makeFresh_draftTree (by simpa using hasRelativePath_draft) (by simp)
    (leaveAlone_draftSteps openedDraftTree) hdoes hiddenDraft hasRelativePath_hiddenDraft
    (by simp [hiddenDraft])
  obtain ⟨hopened, place, way, hbare⟩ :=
    exists_isBareWorkspace wellFormed_draftTree makeFresh_draftTree
  have halone := (hbare.accepts_iff hopened hasRelativePath_hiddenDraft).mpr
    ⟨by rw [htarget]; decide +kernel, by rw [loweredNames]; decide +kernel⟩
  rw [htarget] at hplace halone
  refine ⟨hsources, fun h => hlowered.mp h _ (by simp) _ (by simp) habove, halone, asked, u, hdoes,
    fun h => ?_⟩
  exact ((hplace.mp h).2 draft (by simp) (by decide +kernel)).1 habove

end IdlCompiler.Build
