/-
# The outputs of a run

At the end of a run in which everything compiles, the path of the code of every source leads to
the code that was written last at that place.  Nothing keeps the sources of one run from having
code at one place, and then only the code of the last one of them is there.

Main statements: `run_keeps_last_code`, and `run_twinTree_loses_code`, a run that loses the code
of a source.
-/
import IdlCompiler.Proofs.Compilations
import IdlCompiler.Proofs.Lifecycle

namespace IdlCompiler.Build

open FileTree
open IdlCompiler.Path (walked joinAll)

variable {t t' u : FileTree} {plan : Plan} {asked : List Request} {made : List Made}

/-- Neither the output directory nor a link has the name of a directory of a run on its way. -/
structure Plan.AvoidsRuns (plan : Plan) (t : FileTree) : Prop where
  output : ∀ n, freshName n ∉ walked plan.output
  links : ∀ l target, t.entryAt? l = some (.link target) → ∀ n, freshName n ∉ Path.steps target

theorem hyphen_mem_freshName (n : Nat) : '-' ∈ (freshName n).toList := by
  simp [freshName, freshStart]

/-- The path of a product avoids the directories of runs. -/
theorem freshName_notMem_steps {file : Candidate} {p : Product}
    (houtput : ∀ n, freshName n ∉ walked plan.output)
    (h : product? t plan.output file = some p) (n : Nat) : freshName n ∉ Path.steps p.path := by
  obtain ⟨text, -, h⟩ := product?_eq_some_iff.mp h
  obtain ⟨document, parts, -, hmade, hpath⟩ := productOf?_eq_some_iff.mp h
  obtain ⟨directories, name, rfl, hparts⟩ := isPartName_of_deliverable hmade
  rw [hpath, Path.steps_joinAll (by simp) fun a ha => (hparts a ha).1, List.mem_append]
  rintro (hmem | hmem)
  · exact houtput n hmem
  · exact (hparts _ hmem).2 (hyphen_mem_freshName n)

/-- A path that avoids a directory leads on when the directory is removed. -/
theorem locate_of_shrinks_below {d l : Location} {name path : String}
    (hpath : name ∉ Path.steps path)
    (hlinks : ∀ m target, t.entryAt? m = some (.link target) → name ∉ Path.steps target)
    (hshrinks : Shrinks (fun m => d ++ [name] <+: m) t u) (h : t.locate .target path = .ok l) :
    ¬ d ++ [name] <+: l ∧ u.locate .target path = .ok l := by
  obtain ⟨hcheck, way, hway⟩ := locate_eq_ok_iff.mp h
  obtain ⟨hl, hm⟩ := hway.not_below (by simp) hpath hlinks
  refine ⟨hl, locate_eq_ok_iff.mpr ⟨hcheck, way, hway.mono (fun m hmem => ?_) ?_⟩⟩
  · simp [Stays, hshrinks.entryAt?_eq (hm m hmem)]
  · simp [Ends, hshrinks.entryAt?_eq hl]

/-- Opening the directory of a run keeps the texts of all files. -/
theorem Session.Describes.opens {s : Session} (ht : t.WellFormed) (h : s.Describes plan t t') :
    s.opened.WellFormed ∧ Derives s.place t s.opened := by
  have hroot := makeDirectories_grows ht plan.workspaceRoot
  have hwf := hroot.changes.wellFormed ht
  obtain ⟨d, n, _, -, -, -, vacant, hadds, hdirectory⟩ := makeFresh_adds hwf h.opening
  refine ⟨hadds.wellFormed hwf, (hroot.mono fun _ _ => trivial).tail ⟨_, trivial, hadds⟩, ?_⟩
  intro l _ text htext
  refine .inl ((hasText_makeDirectories ht plan.workspaceRoot l text).mp ?_)
  by_cases hl : l = d ++ [freshName n]
  · subst hl
    obtain ⟨content, modified, hentry, -⟩ := htext
    simp [hdirectory] at hentry
  · exact (hasText_of_entryAt?_eq (hadds.entryAt?_of_ne hl)).mp htext

/-- What is in a tree after a run in which everything compiles. -/
structure Holds (plan : Plan) (t t' : FileTree) (made : List Made) : Prop where
  /-- Every source yields what it yields from the start. -/
  yields : ∀ m ∈ made, product? t plan.output m.file = some m.product
  leads : ∀ m ∈ made, t'.locate .target m.product.path = .ok m.place
  /-- The code that was written last is there. -/
  last : ∀ m ∈ made, ∃ code, lastCode? made m.place = some code ∧
    t'.readText m.product.path = .ok code

/-- A session in which everything compiles makes the code of its sources, one after the other. -/
theorem Session.Describes.exists_made {s : Session} (ht : t.WellFormed)
    (hsteps : plan.steps = .standard) (h : s.Describes plan t t') {compiled : List CompiledFile}
    (hok : s.outcome = .success compiled) : ∃ logs made,
      List.Forall₂ (Completes s.workspace plan.output) s.files logs ∧
        Logged .standard serve logs.flatten s.opened s.batch s.worked ∧
        made.map Made.file = s.files ∧ CompilesAll plan.output s.place made s.opened s.worked ∧
        ∀ m ∈ made, product? t plan.output m.file = some m.product := by
  obtain ⟨hopened, hderives⟩ := h.opens ht
  obtain ⟨way, hworkspace⟩ := h.leads
  obtain ⟨found, hfound⟩ := h.discovered
  -- The batch is a success, so that its log has all calls of all sources.
  obtain ⟨log, _, _, _, hlog, hdoes, hbatch⟩ :=
    exists_log_compile plan.steps serve s.workspace plan.output s.files s.opened
  obtain ⟨rfl, rfl, rfl⟩ := h.compiling.unique hdoes
  rw [hok] at hbatch
  obtain ⟨logs, complete, rfl⟩ : ∃ logs,
      List.Forall₂ (Completes s.workspace plan.output) s.files logs ∧ log = logs.flatten := by
    cases hbatch with
    | success complete log_eq => exact ⟨_, complete, log_eq⟩
  obtain ⟨made, hfiles, hmade⟩ := exists_compilesAll hopened hworkspace
    (hasRelativePath_of_discovered ht hfound) complete (hsteps ▸ hlog)
  have hsources : ∀ m ∈ made, ∃ root names l entry, IsSource t root m.file names l entry := by
    intro m hm
    obtain ⟨names, l, entry, hsource⟩ :=
      of_does_discover hfound m.file (hfiles ▸ List.mem_map_of_mem hm)
    exact ⟨plan.source, names, l, entry, hsource⟩
  exact ⟨logs, made, complete, hsteps ▸ hlog, hfiles, hmade,
    hmade.product?_eq ht hderives h.vacant hsources⟩

/-- The removal of the directory of a run leaves everything else as it is. -/
theorem Session.Describes.shrinks {s : Session} (ht : t.WellFormed) (h : s.Describes plan t t')
    (hgrows : Grows (fun _ => True) s.opened s.worked) :
    Shrinks (s.place <+: ·) s.worked t' := by
  obtain ⟨way, hworkspace⟩ := h.leads
  exact (shrinks_of_does_cleanup (hgrows.changes.wellFormed (h.opens ht).1)
    (hworkspace.of_grows hgrows) h.removing).1

/-- The code that is made last is there at the end, outside the directory of the run. -/
theorem Session.Describes.holds {s : Session} (ht : t.WellFormed) (havoid : plan.AvoidsRuns t)
    (h : s.Describes plan t t') (hmade : CompilesAll plan.output s.place made s.opened s.worked)
    (hyields : ∀ m ∈ made, product? t plan.output m.file = some m.product) :
    Holds plan t t' made ∧ ∀ m ∈ made, ¬ s.place <+: m.place := by
  have hlinks : s.worked.HasLinksOf t :=
    (Grows.changes ((h.opens ht).2.grows.trans hmade.grows)).hasLinksOf
  have hshrinks := h.shrinks ht hmade.grows
  obtain ⟨d, n, -, hplace, -⟩ := h.below
  rw [hplace] at hshrinks
  have hkept (m : Made) (hm : m ∈ made) := locate_of_shrinks_below
    (freshName_notMem_steps havoid.output (hyields m hm) n)
    (fun l target hl => havoid.links l target (hlinks l target hl) n) hshrinks (hmade.leads m hm)
  refine ⟨⟨hyields, fun m hm => (hkept m hm).2, fun m hm => ?_⟩,
    fun m hm => hplace ▸ (hkept m hm).1⟩
  obtain ⟨code, hcode⟩ := exists_lastCode?_eq hm
  have htext : s.worked.HasText m.place code := by
    rw [hmade.hasText_iff (hplace ▸ (hkept m hm).1), hcode]
  exact ⟨code, hcode, readText_eq_ok_iff.mpr ⟨m.place, (hkept m hm).2,
    (hasText_of_entryAt?_eq (hshrinks.entryAt?_eq (hkept m hm).1)).mpr htext⟩⟩

/-- A session in which everything compiles leaves the code that was written last. -/
theorem Session.Describes.exists_holds {s : Session} (ht : t.WellFormed)
    (hsteps : plan.steps = .standard) (havoid : plan.AvoidsRuns t) (h : s.Describes plan t t')
    {compiled : List CompiledFile} (hok : s.outcome = .success compiled) :
    ∃ made, made.map Made.file = s.files ∧ Holds plan t t' made := by
  obtain ⟨_, made, -, -, hfiles, hmade, hyields⟩ := h.exists_made ht hsteps hok
  exact ⟨made, hfiles, (h.holds ht havoid hmade hyields).1⟩

/-- All code is there exactly if no two sources have different code at one place. -/
theorem Holds.forall_readText_eq_iff (h : Holds plan t t' made) :
    (∀ m ∈ made, t'.readText m.product.path = .ok m.product.code) ↔
      ∀ m ∈ made, ∀ m' ∈ made, m.place = m'.place → m.product.code = m'.product.code := by
  rw [← forall_lastCode?_eq_iff]
  refine forall₂_congr fun m hm => ?_
  obtain ⟨code, hcode, hread⟩ := h.last m hm
  rw [hcode, hread]
  simp

/-- Code is lost where two sources have different code with one path. -/
theorem Holds.exists_readText_ne (h : Holds plan t t' made) {m m' : Made} (hm : m ∈ made)
    (hm' : m' ∈ made) (hpath : m.product.path = m'.product.path)
    (hcode : m.product.code ≠ m'.product.code) :
    ∃ lost ∈ made, t'.readText lost.product.path ≠ .ok lost.product.code := by
  have hplace : m.place = m'.place :=
    Except.ok.inj ((h.leads m hm).symm.trans (hpath ▸ h.leads m' hm'))
  by_contra hkept
  push Not at hkept
  exact hcode (h.forall_readText_eq_iff.mp hkept m hm m' hm' hplace)

/-- Nothing is found where no directory is. -/
theorem does_discover_of_missing (hmissing : t.isDirectory plan.source = false) :
    (discover plan.source plan.selection).outcome.Does serve t [.isDirectory plan.source] (.ok [])
      t := by
  have hpresent : (Work.request (.isDirectory plan.source)).Does serve t
      [.isDirectory plan.source] false t :=
    hmissing ▸ Work.does_request serve (.isDirectory plan.source) t
  exact Attempt.does_bind_done (Attempt.does_lift hpresent) rfl

/-- **At the end of a run in which everything compiles, every path leads to the code that was
written last there.**  So the code of all sources is there exactly if no two sources have
different code at one place. -/
theorem run_keeps_last_code (plan : Plan) (t : FileTree) (hsteps : plan.steps = .standard)
    (ht : t.WellFormed) (havoid : plan.AvoidsRuns t) (report : Report) (t' : FileTree)
    (h : (run plan).outcome.run serve t = (.ok report, t')) : ∃ found files,
      (discover plan.source plan.selection).outcome.Does serve t found (.ok files) t ∧
      ∃ made, made.map Made.file = files ∧ Holds plan t t' made ∧
        ((∀ m ∈ made, t'.readText m.product.path = .ok m.product.code) ↔
          ∀ m ∈ made, ∀ m' ∈ made, m.place = m'.place → m.product.code = m'.product.code) := by
  obtain ⟨asked, result, _, hdoes, hcourse⟩ := run_takes_course plan serve t
  obtain ⟨hresult, rfl⟩ := Prod.mk.inj (hdoes.run.symm.trans h)
  have hlifecycle := lifecycle_of_course ht (Plan.isQuiet_of_standard hsteps) hcourse
  clear hcourse hdoes h
  cases hlifecycle with
  | absent _ missing =>
    have hholds : Holds plan t t [] := ⟨by simp, by simp, by simp⟩
    exact ⟨_, [], does_discover_of_missing missing, [], rfl, hholds, hholds.forall_readText_eq_iff⟩
  | lost => simp at hresult
  | homeless => simp at hresult
  | @worked s _ describes =>
    obtain ⟨found, hfound⟩ := describes.discovered
    cases hok : s.outcome with
    | failure => simp [Session.result, hok] at hresult
    | success compiled =>
      obtain ⟨made, hfiles, hholds⟩ := describes.exists_holds ht hsteps havoid hok
      exact ⟨found, s.files, hfound, made, hfiles, hholds, hholds.forall_readText_eq_iff⟩

/-! ## Runs in which everything compiles -/

theorem does_discover {root : String} {selection : Selection}
    {includes excludes : List Glob.Pattern} {files : List (List String)}
    (hincludes : Glob.readAll selection.effectiveIncludes = .ok includes)
    (hexcludes : Glob.readAll selection.excludes = .ok excludes) (hpresent : t.isDirectory root)
    (hfiles : t.filesBelow root = .ok files) :
    (discover root selection).outcome.Does serve t [.isDirectory root, .filesBelow root]
      (.ok (candidates root includes excludes files)) t := by
  have hdirectory : (Work.isDirectory root).Does serve t [.isDirectory root] true t :=
    hpresent ▸ Work.does_request serve (.isDirectory root) t
  have hbelow : (Work.filesBelow root).Does serve t [.filesBelow root] (.ok files) t :=
    hfiles ▸ Work.does_request serve (.filesBelow root) t
  have hread (patterns : List Glob.Pattern) : (Attempt.ofResult ((Except.ok patterns :
      Except Glob.SetError _).mapError BuildError.pattern)).outcome.Does serve t [] (.ok patterns)
        t := Work.does_done serve _ t
  rw [discover, hincludes, hexcludes]
  exact Attempt.does_bind_ok (Attempt.does_lift hdirectory)
    (Attempt.does_bind_ok (hread includes) (Attempt.does_bind_ok (hread excludes)
      (Attempt.does_bind_done (Attempt.does_of BuildError.walk hbelow) rfl)))

theorem does_compileSource (workspace : String) {output target : String} {file : Candidate}
    (hstage : Stage.ofPath file.relative = .canonicalSchema)
    (h : (deliver file.path output).outcome.Does serve t asked (.ok target) u) :
    (compileSource .standard workspace output file).outcome.Does serve t asked
      (.ok ⟨file.relative, .canonicalSchema, none⟩) u := by
  have hschema : (schemaFile .standard workspace file).outcome.Does serve t [] (.ok none) t := by
    rw [schemaFile, hstage]
    exact Attempt.does_pure serve none t
  have hgenerate : (Steps.standard.generate file.path output).outcome.Does serve t asked (.ok ())
      u := Attempt.does_bind_done h rfl
  have hadapted : (Attempt.outcome (ExceptT.adapt FailureCause.generation
      (Steps.standard.generate file.path output))).Does serve t asked (.ok ()) u :=
    hgenerate.map (Except.mapError FailureCause.generation)
  rw [compileSource, hstage]
  exact Attempt.does_bind_ok hschema (Attempt.does_bind_done hadapted rfl)

theorem does_compile_nil (steps : Steps) (workspace output : String) (t : FileTree) :
    (compile steps workspace output []).Does serve t [] (.success []) t := Work.does_done serve _ t

theorem does_compile_cons {steps : Steps} {workspace output : String} {file : Candidate}
    {files : List Candidate} {done : CompiledFile} {compiled : List CompiledFile}
    {more : List Request}
    (hfirst : (compileSource steps workspace output file).outcome.Does serve t asked (.ok done) t')
    (hrest : (compile steps workspace output files).Does serve t' more (.success compiled) u) :
    (compile steps workspace output (file :: files)).Does serve t (asked ++ more)
      (.success (done :: compiled)) u :=
  hfirst.bind (hrest.map (·.prepend done))

/-- A run is a success if its sources are found, it gets a directory and everything compiles,
whatever comes of the removal of the directory. -/
theorem does_run {s v : FileTree} {found opening working removing : List Request}
    {files : List Candidate} {workspace : String} {compiled : List CompiledFile}
    {failure : Option CleanupError}
    (hfound : (discover plan.source plan.selection).outcome.Does serve t found (.ok files) t)
    (hpresent : t.isDirectory plan.source)
    (hopened : (makeWorkspace plan.workspaceRoot).outcome.Does serve t opening (.ok workspace) s)
    (hworked : (compile plan.steps workspace plan.output files).Does serve s working
      (.success compiled) u)
    (hcleaned : (cleanup workspace).Does serve u removing failure v) :
    (run plan).outcome.Does serve t
      (([.isDirectory plan.source] ++ (found ++ [.watch plan.source])) ++
        ((opening ++ (working ++ removing)) ++ [.register plan.output]))
      (.ok { discovered := files.length, compiled, cleanup := failure }) v := by
  have hdirectory : (Work.isDirectory plan.source).Does serve t [.isDirectory plan.source] true t :=
    hpresent ▸ Work.does_request serve (.isDirectory plan.source) t
  have hwatch := Work.does_request serve (.watch plan.source) t
  have hsources : (findSources plan).outcome.Does serve t _ (.ok (some files)) t :=
    Attempt.does_bind_ok (Attempt.does_lift hdirectory)
      (Attempt.does_bind_ok hfound (Attempt.does_bind_done (Attempt.does_lift hwatch) rfl))
  have hinside : (compileInside plan files).outcome.Does serve t _
      (.ok (.success compiled, failure)) v :=
    Attempt.does_bind_ok hopened (Attempt.does_bind_ok (Attempt.does_lift hworked)
      (Attempt.does_bind_done (Attempt.does_lift hcleaned) rfl))
  have hregister := Work.does_request serve (.register plan.output) v
  have hreported : (report plan files (.success compiled, failure)).outcome.Does serve v _ (.ok _)
      v := Attempt.does_bind_done (Attempt.does_lift hregister) rfl
  rw [run_eq]
  exact Attempt.does_bind_ok hsources (Attempt.does_bind_ok hinside hreported)

theorem exists_run_eq_ok {s : FileTree} {found opening working : List Request}
    {files : List Candidate} {workspace : String} {compiled : List CompiledFile}
    (hfound : (discover plan.source plan.selection).outcome.Does serve t found (.ok files) t)
    (hpresent : t.isDirectory plan.source)
    (hopened : (makeWorkspace plan.workspaceRoot).outcome.Does serve t opening (.ok workspace) s)
    (hworked : (compile plan.steps workspace plan.output files).Does serve s working
      (.success compiled) u) :
    ∃ report t', (run plan).outcome.run serve t = (.ok report, t') :=
  ⟨_, _, (does_run hfound hpresent hopened hworked (Work.does_self serve _ u)).run⟩

/-! ## What is known of the code of a canonical schema -/

/-- A source is a canonical schema with a text. -/
structure IsSchema (t : FileTree) (file : Candidate) (document : String) : Prop where
  stage : Stage.ofPath file.relative = .canonicalSchema
  read : t.readText file.path = .ok document

/-- The document of a protocol with a title, whose code has a path of some parts. -/
structure IsTitled (document title : String) (parts : List String) : Prop where
  title : (Protocol.ofText document).toOption.map Protocol.title = some title
  parts : (deliverable document).toOption.map Prod.fst = some parts

/-- Protocols with different titles have different code. -/
theorem IsTitled.code_ne {document document' title title' code code' : String}
    {parts parts' : List String} (h : IsTitled document title parts)
    (h' : IsTitled document' title' parts') (hne : title ≠ title')
    (hmade : deliverable document = .ok (parts, code))
    (hmade' : deliverable document' = .ok (parts', code')) : code ≠ code' := by
  rintro rfl
  obtain ⟨protocol, hread, rfl⟩ := Option.map_eq_some_iff.mp h.title
  obtain ⟨protocol', hread', rfl⟩ := Option.map_eq_some_iff.mp h'.title
  exact hne (title_eq_of_deliverable (eq_ok_of_toOption hread) (eq_ok_of_toOption hread') hmade
    hmade')

theorem IsSchema.exists_product {file : Candidate} {document title : String}
    {parts : List String} (hfile : IsSchema t file document) (h : IsTitled document title parts)
    (output : String) : ∃ code, deliverable document = .ok (parts, code) ∧
      product? t output file = some ⟨joinAll output parts, code⟩ := by
  obtain ⟨⟨_, code⟩, hmade, rfl⟩ := Option.map_eq_some_iff.mp h.parts
  have hmade' := eq_ok_of_toOption hmade
  exact ⟨code, hmade', product?_eq_some_iff.mpr ⟨document, hfile.read,
    productOf?_eq_some_iff.mpr ⟨document, _, by rw [hfile.stage]; rfl, hmade', rfl⟩⟩⟩

theorem IsSchema.deliverable_eq {file : Candidate} {document title output : String}
    {parts : List String} {p : Product} (hfile : IsSchema t file document)
    (h : IsTitled document title parts) (hp : product? t output file = some p) :
    deliverable document = .ok (parts, p.code) ∧ p.path = joinAll output parts := by
  obtain ⟨code, hmade, hproduct⟩ := hfile.exists_product h output
  obtain rfl := Option.some.inj (hproduct.symm.trans hp)
  exact ⟨hmade, rfl⟩

/-! ## Sources with code at one place -/

/-- The text of the first source of `twinTree`. -/
def firstDocument : String := "\x7b\"protocol\": \"A\"\x7d"

/-- The text of the other source of `twinTree`. -/
def secondDocument : String := "\x7b\"protocol\": \"a\"\x7d"

/-- The first source of `twinTree`. -/
def firstSource : Candidate := ⟨"a.schema", "src/a.schema"⟩

/-- The other source of `twinTree`. -/
def secondSource : Candidate := ⟨"b.schema", "src/b.schema"⟩

theorem isTitled_firstDocument : IsTitled firstDocument "A" ["a.rs"] :=
  ⟨by decide, by decide⟩

theorem isTitled_secondDocument : IsTitled secondDocument "a" ["a.rs"] :=
  ⟨by decide, by decide⟩

theorem stage_firstSource : Stage.ofPath firstSource.relative = .canonicalSchema := by
  decide

theorem stage_secondSource : Stage.ofPath secondSource.relative = .canonicalSchema := by
  decide

/-- Where nothing else is than two canonical schemas, these are found. -/
theorem filesBelow_eq_two {content content' : ByteArray}
    (hroot : t.locate .target "src" = .ok ["src"])
    (hbelow : t.below ["src"] =
      [(["a.schema"], Entry.file content 0), (["b.schema"], Entry.file content' 0)].mergeSort
        fun a b => namesLe a.1 b.1) :
    t.filesBelow "src" = .ok [["a.schema"], ["b.schema"]] := by
  have hle : namesLe ["a.schema"] ["b.schema"] := by decide
  rw [List.mergeSort_of_pairwise (by simp [hle])] at hbelow
  simp only [filesBelow, hroot, walkBelow, hbelow, mapError_ok, bind, Except.bind]
  rfl

theorem filesBelow_twinTree : twinTree.filesBelow "src" = .ok [["a.schema"], ["b.schema"]] :=
  filesBelow_eq_two rfl rfl

theorem candidates_twinTree {includes : List Glob.Pattern}
    (hfirst : isSelected includes [] "a.schema") (hsecond : isSelected includes [] "b.schema") :
    candidates "src" includes [] [["a.schema"], ["b.schema"]] = [firstSource, secondSource] := by
  have hpath (name : String) : relativePath [name] = name := by simp [relativePath]
  have hselected : [["a.schema"], ["b.schema"]].filter (fun names =>
      isSelected includes [] (relativePath names)) = [["a.schema"], ["b.schema"]] := by
    simp [hpath, hfirst, hsecond]
  have hfound : [["a.schema"], ["b.schema"]].map (fun names =>
      (⟨relativePath names, joinAll "src" names⟩ : Candidate)) = [firstSource, secondSource] := by
    simp only [List.map, hpath]
    rfl
  have hle : ("a.schema" : String) ≤ "b.schema" := by decide
  have hsorted : [firstSource, secondSource].Pairwise fun a b =>
      decide (a.relative ≤ b.relative) := by
    simp [firstSource, secondSource, hle]
  rw [candidates, hselected, hfound]
  exact List.mergeSort_of_pairwise hsorted

/-- Two canonical schemas are found where a walk comes upon nothing else. -/
theorem exists_does_discover_two (hpresent : t.isDirectory "src")
    (hfiles : t.filesBelow "src" = .ok [["a.schema"], ["b.schema"]]) : ∃ asked,
      (discover "src" {}).outcome.Does serve t asked (.ok [firstSource, secondSource]) t := by
  have hread : ((Glob.readAll defaultIncludes).toOption.map fun includes =>
      (isSelected includes [] "a.schema", isSelected includes [] "b.schema")) =
        some (true, true) := by decide +kernel
  obtain ⟨includes, hincludes, hselected⟩ := Option.map_eq_some_iff.mp hread
  obtain ⟨hfirst, hsecond⟩ := Prod.mk.inj hselected
  have hincludes' : Glob.readAll (Selection.effectiveIncludes {}) = .ok includes :=
    eq_ok_of_toOption hincludes
  have hdiscover := does_discover hincludes' rfl hpresent hfiles
  exact ⟨_, candidates_twinTree hfirst hsecond ▸ hdiscover⟩

theorem exists_does_discover_twinTree : ∃ asked, (discover "src" {}).outcome.Does serve twinTree
    asked (.ok [firstSource, secondSource]) twinTree :=
  exists_does_discover_two rfl filesBelow_twinTree

theorem avoidsRuns_plainPlan : plainPlan.AvoidsRuns twinTree where
  output n hn := by
    have hwalked : walked plainPlan.output = ["out"] := by decide
    have hname : freshName n = "out" := by simpa [hwalked] using hn
    exact absurd (hname ▸ hyphen_mem_freshName n) (by decide)
  links l target h := absurd h (hasNoLinks_twinTree l target)

/-- `twinTree` after the directory of the run has been made. -/
def openedTwinTree : FileTree := ((makeWorkspace "work").outcome.run serve twinTree).2

/-- `twinTree` after the first of its sources has been compiled. -/
def halfTwinTree : FileTree := ((deliver "src/a.schema" "out").outcome.run serve openedTwinTree).2

/-- There is a place for the code of the other source where the code of the first one is. -/
theorem exists_does_deliver_secondSource : ∃ asked u,
    (deliver secondSource.path "out").outcome.Does serve halfTwinTree asked
      (.ok (joinAll "out" ["a.rs"])) u :=
  exists_does_deliver_of_toOption secondDocument ["a.rs"] ["out", "a.rs"] (by decide +kernel)
    isTitled_secondDocument.parts (by decide +kernel) (by decide +kernel) (by decide +kernel)

/-- A run is a success if it finds two canonical schemas and both yield code. -/
theorem exists_run_two_eq_ok {s u v : FileTree} {opening first second : List Request}
    {workspace target target' : String} (hpresent : t.isDirectory "src")
    (hfiles : t.filesBelow "src" = .ok [["a.schema"], ["b.schema"]])
    (hopened : (makeWorkspace "work").outcome.Does serve t opening (.ok workspace) s)
    (hfirst : (deliver firstSource.path "out").outcome.Does serve s first (.ok target) u)
    (hsecond : (deliver secondSource.path "out").outcome.Does serve u second (.ok target') v) :
    ∃ report t', (run plainPlan).outcome.run serve t = (.ok report, t') := by
  obtain ⟨_, hfound⟩ := exists_does_discover_two hpresent hfiles
  have hcompiled := does_compileSource workspace stage_firstSource hfirst
  have hcompiled' := does_compileSource workspace stage_secondSource hsecond
  exact exists_run_eq_ok hfound hpresent hopened
    (does_compile_cons hcompiled (does_compile_cons hcompiled' (does_compile_nil _ _ _ _)))

theorem exists_run_twinTree_eq_ok : ∃ report t',
    (run plainPlan).outcome.run serve twinTree = (.ok report, t') := by
  have hopened : (makeWorkspace "work").outcome.Does serve twinTree _ (.ok "work/run-000000")
    openedTwinTree := Attempt.does_of_toOption (by decide +kernel)
  have hfirst : (deliver firstSource.path "out").outcome.Does serve openedTwinTree _
    (.ok "out/a.rs") halfTwinTree := Attempt.does_of_toOption (by decide +kernel)
  obtain ⟨_, _, hsecond⟩ := exists_does_deliver_secondSource
  exact exists_run_two_eq_ok rfl filesBelow_twinTree hopened hfirst hsecond

theorem isSchema_firstSource_twinTree : IsSchema twinTree firstSource firstDocument :=
  ⟨stage_firstSource, by decide⟩

theorem isSchema_secondSource_twinTree : IsSchema twinTree secondSource secondDocument :=
  ⟨stage_secondSource, by decide⟩

/-- The sources have different code with one path. -/
theorem code_ne_of_twinTree {p p' : Product}
    (h : product? twinTree "out" firstSource = some p)
    (h' : product? twinTree "out" secondSource = some p') :
    p.path = p'.path ∧ p.code ≠ p'.code := by
  obtain ⟨hmade, hpath⟩ := isSchema_firstSource_twinTree.deliverable_eq isTitled_firstDocument h
  obtain ⟨hmade', hpath'⟩ :=
    isSchema_secondSource_twinTree.deliverable_eq isTitled_secondDocument h'
  exact ⟨hpath.trans hpath'.symm,
    isTitled_firstDocument.code_ne isTitled_secondDocument (by decide) hmade hmade'⟩

/-- A run in which everything compiles loses the code of a source. -/
theorem run_twinTree_loses_code : twinTree.WellFormed ∧ plainPlan.AvoidsRuns twinTree ∧
    ∃ report t', (run plainPlan).outcome.run serve twinTree = (.ok report, t') ∧
      ∃ made, made.map Made.file = [firstSource, secondSource] ∧
        Holds plainPlan twinTree t' made ∧
        ∃ lost ∈ made, t'.readText lost.product.path ≠ .ok lost.product.code := by
  obtain ⟨report, t', hrun⟩ := exists_run_twinTree_eq_ok
  obtain ⟨found, files, hfound, made, hfiles, hholds, -⟩ := run_keeps_last_code plainPlan twinTree
    rfl wellFormed_twinTree avoidsRuns_plainPlan report t' hrun
  obtain ⟨_, hdiscover⟩ := exists_does_discover_twinTree
  obtain ⟨-, hsources, -⟩ := hfound.unique hdiscover
  obtain rfl := Except.ok.inj hsources
  refine ⟨wellFormed_twinTree, avoidsRuns_plainPlan, report, t', hrun, made, hfiles, hholds, ?_⟩
  obtain ⟨m, hmem, hm⟩ : ∃ m ∈ made, m.file = firstSource := List.mem_map.mp (by simp [hfiles])
  obtain ⟨m', hmem', hm'⟩ : ∃ m ∈ made, m.file = secondSource := List.mem_map.mp (by simp [hfiles])
  obtain ⟨hpath, hcode⟩ :=
    code_ne_of_twinTree (hm ▸ hholds.yields m hmem) (hm' ▸ hholds.yields m' hmem')
  exact hholds.exists_readText_ne hmem hmem' hpath hcode

end IdlCompiler.Build
