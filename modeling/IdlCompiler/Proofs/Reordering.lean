/-
# Compiling sources in another order

What is compiled of a source is saved under the paths of its document and its code.  If these lead
to different files for all sources, and not to files that sources are read from, the sources can
be compiled in any order.  The order does not matter to what the tree becomes.  It does matter
where links make different paths lead to one file.

Main statements: `gains_of_logged`, a batch that has been compiled; `exists_logged_of_gains`, the
same sources in another order; and `compile_perm`.
-/
import IdlCompiler.Proofs.Repetition
import IdlCompiler.Proofs.SavedTexts
import IdlCompiler.Proofs.WorkspaceContents

namespace IdlCompiler.Build

open FileTree
open IdlCompiler.Path (IsName walked joinAll)

variable {o t u v w x : FileTree} {place l : Location} {workspace output text : String}
  {way : List Location} {asked : List Request} {file : Candidate} {files : List Candidate}
  {protocol : Protocol} {p q : Product} {ps qs : List Product}

/-! ## What is saved for a source -/

/-- The document that a definition of a tree is lowered to, under its path in the workspace. -/
def document? (t : FileTree) (workspace : String) (file : Candidate) : Option Product :=
  match Stage.ofPath file.relative with
  | .canonicalSchema => none
  | .interfaceDefinition => (t.readText file.path).toOption.bind fun text =>
    (Protocol.ofIdl text).toOption.map fun protocol =>
      ⟨loweredFile workspace file, protocol.canonicalText⟩

theorem document?_of_schema (hstage : Stage.ofPath file.relative = .canonicalSchema) :
    document? t workspace file = none := by
  rw [document?, hstage]

theorem document?_of_definition (hstage : Stage.ofPath file.relative = .interfaceDefinition)
    (hread : t.readText file.path = .ok text) (hlower : Protocol.ofIdl text = .ok protocol) :
    document? t workspace file = some ⟨loweredFile workspace file, protocol.canonicalText⟩ := by
  rw [document?, hstage, hread]
  simp [Except.toOption, hlower]

theorem of_document? (h : document? t workspace file = some p) :
    Stage.ofPath file.relative = .interfaceDefinition ∧ p.path = loweredFile workspace file := by
  cases hstage : Stage.ofPath file.relative with
  | canonicalSchema => simp [document?_of_schema hstage] at h
  | interfaceDefinition =>
    rw [document?, hstage] at h
    obtain ⟨text, -, h⟩ := Option.bind_eq_some_iff.mp h
    obtain ⟨protocol, -, rfl⟩ := Option.map_eq_some_iff.mp h
    exact ⟨rfl, rfl⟩

/-- What is saved for a source: the document of a definition, and the code. -/
def products (t : FileTree) (workspace output : String) (file : Candidate) : List Product :=
  (document? t workspace file).toList ++ (product? t output file).toList

theorem mem_products_iff : p ∈ products t workspace output file ↔
    document? t workspace file = some p ∨ product? t output file = some p := by
  simp [products]

theorem products_congr (h : w.readText file.path = t.readText file.path) :
    products w workspace output file = products t workspace output file := by
  simp only [products, document?, product?, h]

/-- Generating code saves it. -/
theorem saves_of_generate {schemaFile : String}
    (h : ((Call.generate schemaFile output).perform .standard).outcome.Does serve t asked (.ok ())
      u) : ∃ document parts code, t.readText schemaFile = .ok document ∧
        deliverable document = .ok (parts, code) ∧ Saves t ⟨joinAll output parts, code⟩ u := by
  obtain ⟨answer, hanswer, hdoes⟩ := Attempt.of_does_adapt h
  obtain ⟨result, hdelivers, hok⟩ := exists_delivers hdoes
  obtain ⟨target, rfl⟩ := hok (eq_ok_of_mapError hanswer.symm)
  cases hdelivers with
  | kept read made present => exact ⟨_, _, _, read, made, .inl ⟨present, rfl⟩⟩
  | written read made writes => exact ⟨_, _, _, read, made, .inr writes⟩

/-- Lowering a source saves its document. -/
theorem saves_of_lowering
    (h : Logged .standard serve (loweringLog workspace file text protocol) t asked u) :
    t.readText file.path = .ok text ∧ Protocol.ofIdl text = .ok protocol ∧
      Saves t ⟨loweredFile workspace file, protocol.canonicalText⟩ u := by
  obtain _ | ⟨hread, _ | ⟨hlower, _ | ⟨hmake, _ | ⟨hwrite, ⟨⟩⟩⟩⟩⟩ := h
  obtain ⟨read, rfl⟩ := readText_eq_of_does hread
  obtain ⟨-, lower, rfl⟩ := Attempt.of_does_ofResult hlower
  have hmade := makeDirectories_eq_of_does hmake
  refine ⟨read, eq_ok_of_mapError lower.symm, .inr ?_⟩
  rw [hmade]
  exact writeFile_eq_of_does hwrite

/-- A source that is compiled has its document and its code saved. -/
theorem savesAll_of_logged (ht : t.WellFormed)
    (h : Logged .standard serve (sourceLog workspace output file text protocol) t asked u) :
    SavesAll (products t workspace output file) t u ∧ ∃ p, product? t output file = some p := by
  cases hstage : Stage.ofPath file.relative with
  | canonicalSchema =>
    rw [sourceLog_of_schema hstage] at h
    obtain _ | ⟨hgenerate, ⟨⟩⟩ := h
    obtain ⟨document, parts, code, hread, hmade, hsaves⟩ := saves_of_generate hgenerate
    have hp : product? t output file = some ⟨joinAll output parts, code⟩ := by
      refine product?_eq_some_iff.mpr ⟨document, hread, hstage ▸ ?_⟩
      exact productOf?_eq_some_iff.mpr ⟨document, parts, rfl, hmade, rfl⟩
    rw [products, document?_of_schema hstage, hp]
    exact ⟨.cons hsaves .nil, _, rfl⟩
  | interfaceDefinition =>
    rw [sourceLog_of_definition hstage] at h
    obtain ⟨_, v, _, -, hlowering, hlast⟩ := h.of_append
    obtain _ | ⟨hgenerate, ⟨⟩⟩ := hlast
    obtain ⟨hread, hlower, hsaves⟩ := saves_of_lowering hlowering
    obtain ⟨l, hl, htext, -⟩ := hsaves.exists_hasText ht
    obtain ⟨document, parts, code, hdocument, hmade, hsaves'⟩ := saves_of_generate hgenerate
    obtain rfl := Except.ok.inj ((readText_eq_ok_iff.mpr ⟨l, hl, htext⟩).symm.trans hdocument)
    have hp : product? t output file = some ⟨joinAll output parts, code⟩ := by
      refine product?_eq_some_iff.mpr ⟨text, hread, hstage ▸ ?_⟩
      exact productOf?_eq_some_iff.mpr ⟨_, parts, by rw [documentOf, hlower]; rfl, hmade, rfl⟩
    rw [products, document?_of_definition hstage hread hlower, hp]
    exact ⟨.cons hsaves (.cons hsaves' .nil), _, rfl⟩

/-! ## Paths of documents and of code -/

/-- The path of code leads below the output directory, and its last name is that of a module. -/
theorem exists_path_eq (h : product? t output file = some p) : ∃ directories module,
    p.path = joinAll output (directories ++ [module ++ ".rs"]) ∧
      ∀ a ∈ directories ++ [module ++ ".rs"], IsName a := by
  obtain ⟨text, -, h⟩ := product?_eq_some_iff.mp h
  obtain ⟨document, parts, -, hmade, hpath⟩ := productOf?_eq_some_iff.mp h
  obtain ⟨protocol, -, hparts, -⟩ := deliverable_eq_ok_iff.mp hmade
  obtain ⟨-, -, heq⟩ := Resolved.outputParts_eq_ok_iff.mp hparts
  refine ⟨_, _, heq ▸ hpath, fun a ha => ?_⟩
  exact (Resolved.isPartName_of_outputParts hparts a (heq ▸ ha)).1

theorem HasRelativePath.steps_loweredFile (h : HasRelativePath file) (workspace : String) :
    Path.steps (loweredFile workspace file) = walked workspace ++ loweredNames file := by
  obtain ⟨_, _, -, -, heq, hnames⟩ := h.exists_loweredNames_eq
  rw [h.loweredFile_eq, heq]
  exact Path.steps_joinAll (by simp) (heq ▸ hnames)

section Workspace

variable (hbare : IsBareWorkspace o workspace place way) (hlasts : o.Lasts u)
  (hlinks : u.HasLinksOf o)
include hbare hlasts hlinks

theorem IsBareWorkspace.isWorkspace_of_lasts : u.IsWorkspace workspace place way :=
  hbare.isWorkspace.mono (fun m _ => hlasts.stays m) (hlasts.stays place) hlinks

/-- The path of a document leads to its place in the workspace if it leads anywhere. -/
theorem eq_append_of_locate_loweredFile (hfile : HasRelativePath file)
    (h : u.locate .target (loweredFile workspace file) = .ok l) :
    l = place ++ loweredNames file := by
  obtain ⟨-, way', hway⟩ := locate_eq_ok_iff.mp h
  rw [hfile.steps_loweredFile] at hway
  exact (hbare.isWorkspace_of_lasts hlasts hlinks).eq_append hfile.loweredNames_ne_nil
    (fun a ha => (hfile.isName_of_mem_loweredNames a ha).plain) hway

/-- No link on the way to a document leads to what is missing from the start: the workspace is
there, and it has no links. -/
theorem hasFirmWay_loweredFile (ho : o.WellFormed) (hfile : HasRelativePath file) :
    HasFirmWay o u (loweredFile workspace file) := by
  have hnames := hfile.isName_of_mem_loweredNames
  have hworkspace := hbare.isWorkspace_of_lasts hlasts hlinks
  have hsteps := hfile.steps_loweredFile workspace
  obtain ⟨directory, name, -, -, heq, -⟩ := hfile.exists_loweredNames_eq
  have hends : Path.steps (loweredFile workspace file) =
      walked workspace ++ directory ++ [String.ofList (loweredName name.toList)] := by
    rw [hsteps, heq, List.append_assoc]
  refine ⟨⟨_, _, hends, hnames _ (by simp [heq])⟩, fun p hp l target hl hlink => ?_⟩
  have hwalked : walked (loweredFile workspace file) = walked workspace ++ loweredNames file := by
    rw [hfile.loweredFile_eq, Path.walked_joinAll hnames]
  have hslash : Path.hasFinalSlash p = false := by
    rcases List.mem_cons.mp hp with rfl | hp
    · exact hfile.hasFinalSlash_loweredFile workspace
    · exact Path.hasFinalSlash_of_mem_above hp
  have hfront : walked p <+: walked workspace ++ loweredNames file :=
    hwalked ▸ Path.walked_isPrefix_of_mem_cons_above hp
  obtain ⟨hcheck, way', hway⟩ := locate_eq_ok_iff.mp hl
  rcases isPrefix_append_cases hfront with ⟨behind, hbehind⟩ | ⟨names, heq', hne, hstart⟩
  · -- The path leads up to the workspace, along directories that are there.
    have hleads := hbare.isWorkspace.leads.target_of_entry hbare.isWorkspace.directory
    rw [hbehind] at hleads
    obtain ⟨way'', m, hm, hdirectory⟩ :=
      ho.exists_leads_of_append hleads (fun _ => hbare.isWorkspace.directory) (entryAt?_nil o)
    obtain ⟨m', hm', hentry⟩ :=
      isDirectory_iff.mp (ho.isDirectory_of_leads hcheck hm hdirectory)
    exact ⟨_, find_eq_ok_iff.mpr ⟨m', hm', hentry⟩⟩
  · rw [Path.steps_eq, hslash, heq'] at hway
    have hway : u.Leads .entry maxLinks [] (walked workspace ++ names) way' l := by simpa using hway
    obtain rfl := hworkspace.eq_append hne (fun a ha => (hnames a (hstart.subset ha)).plain) hway
    exact absurd hlink (hworkspace.noLinks _ target (List.prefix_append ..))

/-- The path of code does not lead to a document: its last name is none of a document, and a link
would have to lead to what is missing from the start. -/
theorem leadApart_of_document (hu : u.WellFormed) (hfile : HasRelativePath file) {other : Candidate}
    (hd : document? t workspace file = some p) (hq : product? t output other = some q)
    (hfirm : IsFirm o u q.path) : LeadApart u p q := by
  intro l hl hl'
  obtain ⟨-, hpath⟩ := of_document? hd
  obtain rfl := eq_append_of_locate_loweredFile hbare hlasts hlinks hfile (hpath ▸ hl)
  obtain ⟨directories, module, hpath', hnames⟩ := exists_path_eq hq
  have hsteps := Path.steps_joinAll (d := output) (by simp) hnames
  rw [← hpath', ← List.append_assoc] at hsteps
  obtain ⟨entry, hfind⟩ | ⟨-, _, d, -, heq⟩ := hfirm.cases hu hl' hsteps (hnames _ (by simp))
  · obtain ⟨m, hm, hthere⟩ := find_eq_ok_iff.mp hfind
    obtain rfl := Except.ok.inj ((hlasts.locate_eq hm (by simp [hthere])).symm.trans hl')
    rw [hbare.bare _ (List.prefix_append ..) (by simpa using hfile.loweredNames_ne_nil)] at hthere
    simp at hthere
  · obtain ⟨directory, name, -, -, hlowered, -⟩ := hfile.exists_loweredNames_eq
    rw [hlowered, ← List.append_assoc] at heq
    have hlast := congrArg String.toList (List.append_singleton_inj.mp heq).2
    have hend := congrArg List.getLast? hlast
    simp [loweredName, Stage.schemaExtension, List.getLast?_append] at hend

end Workspace

/-! ## Sources that can be compiled in any order -/

/-- Sources are files that no code is written to, their code is written to different files, and
no link on the way to code leads to what is missing from the start.  Where the paths of the code
lead is seen in a later tree. -/
structure AreApart (o u : FileTree) (output : String) (files : List Candidate) : Prop where
  sources : ∀ file ∈ files, ∃ l, o.locate .target file.path = .ok l ∧ o.IsFileAt l ∧
    ∀ other ∈ files, ∀ p, product? o output other = some p → u.locate .target p.path ≠ .ok l
  places : ∀ file ∈ files, ∀ other ∈ files, file ≠ other → ∀ p q,
    product? o output file = some p → product? o output other = some q → LeadApart u p q
  links : ∀ file ∈ files, ∀ p, product? o output file = some p →
    ∀ path ∈ p.path :: Path.above p.path, IsFirm o u path

/-- A source is a file that no text is saved to. -/
def IsUntouched (o u : FileTree) (ps : List Product) (file : Candidate) : Prop :=
  ∃ l, o.locate .target file.path = .ok l ∧ o.IsFileAt l ∧
    ∀ p ∈ ps, u.locate .target p.path ≠ .ok l

theorem Gains.products_eq (h : Gains o ps w) (hlasts : w.Lasts u)
    (huntouched : IsUntouched o u qs file) (hsub : ps ⊆ qs) (workspace output : String) :
    w.readText file.path = o.readText file.path ∧
      products w workspace output file = products o workspace output file := by
  obtain ⟨l, hl, hfile, hapart⟩ := huntouched
  have hread := h.readText_eq hlasts hl hfile fun p hp => hapart p (hsub hp)
  exact ⟨hread, products_congr hread⟩

section Apart

variable (hbare : IsBareWorkspace o workspace place way) (hlasts : o.Lasts u)
  (hlinks : u.HasLinksOf o) (hfiles : ∀ file ∈ files, HasRelativePath file)
  (hapart : AreApart o u output files)
include hbare hlasts hlinks hfiles hapart

theorem AreApart.hasFirmWay (ho : o.WellFormed) :
    ∀ p ∈ files.flatMap (products o workspace output), HasFirmWay o u p.path := by
  intro p hp
  obtain ⟨file, hfile, hp⟩ := List.mem_flatMap.mp hp
  rcases mem_products_iff.mp hp with hd | hp
  · rw [(of_document? hd).2]
    exact hasFirmWay_loweredFile hbare hlasts hlinks ho (hfiles file hfile)
  · obtain ⟨directories, module, hpath, hnames⟩ := exists_path_eq hp
    refine ⟨⟨walked output ++ directories, module ++ ".rs", ?_, hnames _ (by simp)⟩,
      hapart.links file hfile p hp⟩
    rw [hpath, Path.steps_joinAll (by simp) hnames, List.append_assoc]

theorem AreApart.isUntouched :
    ∀ file ∈ files, IsUntouched o u (files.flatMap (products o workspace output)) file := by
  intro file hfile
  obtain ⟨l, hl, hl', hcode⟩ := hapart.sources file hfile
  refine ⟨l, hl, hl', fun p hp hpl => ?_⟩
  obtain ⟨other, hother, hp⟩ := List.mem_flatMap.mp hp
  rcases mem_products_iff.mp hp with hd | hp
  · rw [(of_document? hd).2] at hpl
    obtain rfl := eq_append_of_locate_loweredFile hbare hlasts hlinks (hfiles other hother) hpl
    exact hbare.not_isFileAt (List.prefix_append ..) hl'
  · exact hcode other hother p hp hpl

/-- The documents and the code of all sources have different places. -/
theorem AreApart.pairwise (hu : u.WellFormed) (hdistinct : (files.map Candidate.relative).Nodup) :
    (files.flatMap (products o workspace output)).Pairwise (LeadApart u) := by
  have hdocument {file other : Candidate} (hfile : file ∈ files) (hother : other ∈ files)
      {d q : Product} (hd : document? o workspace file = some d)
      (hq : product? o output other = some q) : LeadApart u d q :=
    leadApart_of_document hbare hlasts hlinks hu (hfiles file hfile) hd hq
      (hapart.links other hother q hq q.path (by simp))
  rw [List.pairwise_flatMap]
  constructor
  · intro file hfile
    unfold products
    cases hd : document? o workspace file with
    | none => cases product? o output file <;> simp
    | some d =>
      cases hq : product? o output file with
      | none => simp
      | some q => simpa using hdocument hfile hfile hd hq
  · rw [List.nodup_iff_pairwise_ne, List.pairwise_map] at hdistinct
    refine hdistinct.imp_of_mem fun {file other} hfile hother hne p hp q hq => ?_
    rcases mem_products_iff.mp hp with hd | hp <;> rcases mem_products_iff.mp hq with hd' | hq
    · intro l hl hl'
      obtain ⟨hstage, hpath⟩ := of_document? hd
      obtain ⟨hstage', hpath'⟩ := of_document? hd'
      have hplace := eq_append_of_locate_loweredFile hbare hlasts hlinks (hfiles file hfile)
        (hpath ▸ hl)
      have hplace' := eq_append_of_locate_loweredFile hbare hlasts hlinks (hfiles other hother)
        (hpath' ▸ hl')
      exact hne ((hfiles file hfile).relative_eq_of_loweredNames (hfiles other hother) hstage
        hstage' (List.append_cancel_left (hplace.symm.trans hplace')))
    · exact hdocument hfile hother hd hq
    · exact (hdocument hother hfile hd' hp).symm
    · exact hapart.places file hfile other hother (fun heq => hne (heq ▸ rfl)) p q hp hq

end Apart

/-! ## A batch that has been compiled -/

theorem grows_of_logged (ht : t.WellFormed) {logs : List (List Reply)}
    (hlogs : List.Forall₂ (Completes workspace output) files logs)
    (h : Logged .standard serve logs.flatten t asked u) : Grows (fun _ => True) t u := by
  induction hlogs generalizing t asked with
  | nil =>
    cases h
    exact .refl
  | cons hfirst _ ih =>
    obtain ⟨text, protocol, rfl⟩ := hfirst
    obtain ⟨_, v, _, -, hlog, hrest⟩ := h.of_append
    have hgrows := (savesAll_of_logged ht hlog).1.grows ht
    exact hgrows.trans (ih (hgrows.changes.wellFormed ht) hrest)

/-- **A batch saves the documents and the code of all its sources**, as these are at the start. -/
theorem gains_of_logged (ho : o.WellFormed) (hw : Gains o qs w)
    {logs : List (List Reply)} (hlogs : List.Forall₂ (Completes workspace output) files logs)
    (h : Logged .standard serve logs.flatten w asked u)
    (hsources : ∀ file ∈ files,
      IsUntouched o u (qs ++ files.flatMap (products o workspace output)) file)
    (hapart : (qs ++ files.flatMap (products o workspace output)).Pairwise (LeadApart u)) :
    Gains o (qs ++ files.flatMap (products o workspace output)) u ∧
      ∀ file ∈ files, ∃ p, product? o output file = some p := by
  induction hlogs generalizing w qs asked with
  | nil =>
    cases h
    simpa using hw
  | @cons file _ files _ hfirst hrest ih =>
    obtain ⟨text, protocol, rfl⟩ := hfirst
    obtain ⟨_, x, _, -, hlog, hlogs⟩ := h.of_append
    obtain ⟨huntouched, hsources⟩ := List.forall_mem_cons.mp hsources
    rw [List.flatMap_cons, ← List.append_assoc] at huntouched hsources hapart ⊢
    have hwell := hw.wellFormed ho
    obtain ⟨hsaves, p, hp⟩ := savesAll_of_logged hwell hlog
    have hgrows := hsaves.grows hwell
    have hlater := Lasts.of_grows (grows_of_logged (hgrows.changes.wellFormed hwell) hrest hlogs)
    obtain ⟨hread, heq⟩ := hw.products_eq ((Lasts.of_grows hgrows).trans hlater) huntouched
      (by simp) workspace output
    rw [heq] at hsaves
    obtain ⟨hgains, hproducts⟩ :=
      ih (hw.append ho hsaves hlater (List.pairwise_append.mp hapart).1) hlogs hsources hapart
    refine ⟨hgains, List.forall_mem_cons.mpr ⟨⟨p, ?_⟩, hproducts⟩⟩
    rw [← hp, product?, product?, hread]

/-! ## The same sources in another order -/

section Known

variable (ho : o.WellFormed) (hu : Gains o ps u) (hways : ∀ p ∈ ps, HasFirmWay o u p.path)
  (hw : Gains o qs w) (hlasts : w.Lasts u)
include ho hu hways hw hlasts

end Known

/-- Sources have been compiled in such a way that their order does not matter. -/
structure IsSettled (o u : FileTree) (workspace output : String) (files : List Candidate) :
    Prop where
  gains : Gains o (files.flatMap (products o workspace output)) u
  ways : ∀ p ∈ files.flatMap (products o workspace output), HasFirmWay o u p.path
  sources : ∀ file ∈ files,
    IsUntouched o u (files.flatMap (products o workspace output)) file
  made : ∀ file ∈ files, ∃ p, product? o output file = some p
  apart : (files.flatMap (products o workspace output)).Pairwise (LeadApart u)

/-- In a tree on the way that has the same texts the order does not matter either. -/
theorem IsSettled.of_lasts {files' : List Candidate} (h : IsSettled o u workspace output files)
    (hperm : files'.Perm files) (hlasts : w.Lasts u)
    (hw : Gains o (files'.flatMap (products o workspace output)) w) :
    IsSettled o w workspace output files' := by
  have hproducts := hperm.flatMap_right (products o workspace output)
  refine ⟨hw, fun p hp => (h.ways p (hproducts.subset hp)).of_lasts hlasts, fun file hfile => ?_,
    fun file hfile => h.made file (hperm.subset hfile), ?_⟩
  · obtain ⟨l, hl, hl', hapart⟩ := h.sources file (hperm.subset hfile)
    exact ⟨l, hl, hl', fun p hp hpl =>
      hapart p (hproducts.subset hp) (hw.locate_later hlasts hp hpl)⟩
  · refine ((hproducts.pairwise_iff LeadApart.symm).mpr h.apart).imp_of_mem ?_
    exact fun hp hq hpq l hpl hql =>
      hpq l (hw.locate_later hlasts hp hpl) (hw.locate_later hlasts hq hql)

/-- A batch leaves its sources settled if they are apart. -/
theorem AreApart.isSettled (ho : o.WellFormed)
    (hbare : IsBareWorkspace o workspace place way)
    (hfiles : ∀ file ∈ files, HasRelativePath file)
    (hdistinct : (files.map Candidate.relative).Nodup) {compiled : List CompiledFile}
    (h : (compile .standard workspace output files).Does serve o asked (.success compiled) u)
    (hapart : AreApart o u output files) : IsSettled o u workspace output files := by
  obtain ⟨log, _, outcome, _, hlog, hdoes, hbatch⟩ :=
    exists_log_compile .standard serve workspace output files o
  obtain ⟨-, houtcome, rfl⟩ := h.unique hdoes
  cases hbatch with
  | failure => simp at houtcome
  | success complete log_eq =>
    subst log_eq
    have hgrows := grows_of_logged ho complete hlog
    have hlasts := Lasts.of_grows hgrows
    have hlinks := hgrows.changes.hasLinksOf
    have hpairwise := hapart.pairwise hbare hlasts hlinks hfiles (hgrows.changes.wellFormed ho)
      hdistinct
    have hsources := hapart.isUntouched hbare hlasts hlinks hfiles
    obtain ⟨hgains, hmade⟩ := gains_of_logged ho (.nil o) complete hlog hsources hpairwise
    exact ⟨hgains, hapart.hasFirmWay hbare hlasts hlinks hfiles ho, hsources, hmade, hpairwise⟩

end IdlCompiler.Build
