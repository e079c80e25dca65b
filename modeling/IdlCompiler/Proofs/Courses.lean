/-
# The course of a run

A run finds its sources first and tells the build system about them, works inside a fresh
workspace, and registers its output if every source compiles.  `Course` lists the ways in
which this may go, with what is asked on each of them.

Main statements: `run_takes_course`, there are no other ways, and `run_error_blames_stage`,
which tells what a run reports about a source that does not compile.
-/
import IdlCompiler.Build.Run
import IdlCompiler.Proofs.Batches

namespace IdlCompiler.Build

variable {σ : Type} {server : Server σ}

/-! ## The parts of a run -/

/-- The sources of a run, after the build system has been told about them.  There are none if
the source directory is missing, and then nothing is told. -/
def findSources (plan : Plan) : Attempt BuildError (Option (List Candidate)) := do
  if !(← Work.isDirectory plan.source) then return none
  let files ← discover plan.source plan.selection
  Work.watch plan.source
  return some files

/-- The batch of a run inside its workspace. -/
def compileInside (plan : Plan) (files : List Candidate) :
    Attempt BuildError (Outcome × Option CleanupError) :=
  withWorkspace plan.workspaceRoot fun workspace =>
    compile plan.steps workspace plan.output files

/-- The end of a run, which registers the output if the batch is a success. -/
def report (plan : Plan) (files : List Candidate) :
    Outcome × Option CleanupError → Attempt BuildError Report
  | (.success compiled, cleanup) => do
    Work.register plan.output
    return { discovered := files.length, compiled, cleanup }
  | (.failure _ failure, _) => throw (.ofFailure failure)

theorem run_eq (plan : Plan) : run plan = (do
    match ← findSources plan with
    | none => return {}
    | some files => report plan files (← compileInside plan files)) := by
  have hrest (files : List Candidate) :
      compileAll plan files = (do report plan files (← compileInside plan files)) := by
    rw [compileAll, compileInside]
    refine bind_congr fun result => ?_
    obtain ⟨_ | _, _⟩ := result <;> rfl
  simp only [run, findSources, hrest, bind_assoc]
  refine bind_congr fun present => ?_
  cases present <;> simp

/-! ## The ways of a run -/

/-- The ways of a run: what it asks, how it ends and the state that it leaves. -/
inductive Course (plan : Plan) (server : Server σ) (s : σ) :
    List Request → Except BuildError Report → σ → Prop where
  /-- There is no source directory. -/
  | idle {asked : List Request} {s' : σ}
      (found : (findSources plan).outcome.Does server s asked (.ok none) s') :
      Course plan server s asked (.ok {}) s'
  /-- The sources cannot be found out. -/
  | lost {asked : List Request} {e : BuildError} {s' : σ}
      (found : (findSources plan).outcome.Does server s asked (.error e) s') :
      Course plan server s asked (.error e) s'
  /-- There is no place to work in. -/
  | homeless {asked more : List Request} {files : List Candidate} {e : BuildError} {s₁ s' : σ}
      (found : (findSources plan).outcome.Does server s asked (.ok (some files)) s₁)
      (inside : (compileInside plan files).outcome.Does server s₁ more (.error e) s') :
      Course plan server s (asked ++ more) (.error e) s'
  /-- A source does not compile. -/
  | stopped {asked more : List Request} {files : List Candidate} {compiled : List CompiledFile}
      {failure : Failure} {cleanup : Option CleanupError} {s₁ s' : σ}
      (found : (findSources plan).outcome.Does server s asked (.ok (some files)) s₁)
      (inside : (compileInside plan files).outcome.Does server s₁ more
        (.ok (.failure compiled failure, cleanup)) s') :
      Course plan server s (asked ++ more) (.error (.ofFailure failure)) s'
  /-- All sources compile. -/
  | finished {asked more : List Request} {files : List Candidate} {compiled : List CompiledFile}
      {cleanup : Option CleanupError} {s₁ s₂ s' : σ}
      (found : (findSources plan).outcome.Does server s asked (.ok (some files)) s₁)
      (inside : (compileInside plan files).outcome.Does server s₁ more
        (.ok (.success compiled, cleanup)) s₂)
      (registered : (Work.register plan.output).Does server s₂ [.register plan.output] () s') :
      Course plan server s (asked ++ (more ++ [.register plan.output]))
        (.ok { discovered := files.length, compiled, cleanup }) s'

/-- A run takes one of these ways. -/
theorem run_takes_course (plan : Plan) (server : Server σ) (s : σ) :
    ∃ asked result s', (run plan).outcome.Does server s asked result s' ∧
      Course plan server s asked result s' := by
  rw [run_eq]
  have hfound := Work.does_self server (findSources plan).outcome s
  cases hfiles : ((findSources plan).outcome.run server s).1 with
  | error e =>
    rw [hfiles] at hfound
    exact ⟨_, _, _, Attempt.does_bind_error hfound, .lost hfound⟩
  | ok files =>
    rw [hfiles] at hfound
    cases files with
    | none =>
      exact ⟨_, _, _, Attempt.does_bind_done hfound rfl, .idle hfound⟩
    | some files =>
      generalize ((findSources plan).outcome.run server s).2 = s₁ at hfound
      have hinside := Work.does_self server (compileInside plan files).outcome s₁
      cases hbatch : ((compileInside plan files).outcome.run server s₁).1 with
      | error e =>
        rw [hbatch] at hinside
        exact ⟨_, _, _, Attempt.does_bind_ok hfound (Attempt.does_bind_error hinside),
          .homeless hfound hinside⟩
      | ok result =>
        rw [hbatch] at hinside
        obtain ⟨compiled | ⟨compiled, failure⟩, cleanup⟩ := result
        · have hregister := Work.does_request server (.register plan.output)
            ((compileInside plan files).outcome.run server s₁).2
          have hend : (report plan files (.success compiled, cleanup)).outcome.Does server _ _
              (.ok _) _ := Attempt.does_bind_done (Attempt.does_lift hregister) rfl
          exact ⟨_, _, _, Attempt.does_bind_ok hfound (Attempt.does_bind_ok hinside hend),
            .finished hfound hinside hregister⟩
        · exact ⟨_, _, _, Attempt.does_bind_ok hfound (Attempt.does_bind_done hinside rfl),
            .stopped hfound hinside⟩

/-! ## Errors of the parts -/

theorem isDiscoveryError_of_discover {root : String} {selection : Selection} {s s' : σ}
    {asked : List Request} {e : BuildError}
    (h : (discover root selection).outcome.Does server s asked (.error e) s') :
    (∃ error, e = .pattern error) ∨ ∃ error, e = .walk error := by
  obtain ⟨_, present, _, _, -, -, h⟩ := Attempt.of_does_lift_bind h
  cases present with
  | false =>
    obtain ⟨-, ⟨⟩, -⟩ := h.unique (Attempt.does_pure server _ _)
  | true =>
    -- The include patterns are read first, then the exclude patterns, then the directory.
    rcases Attempt.of_does_bind h with ⟨_, ⟨⟩, h⟩ | ⟨_, includes, _, _, -, -, h⟩
    · obtain ⟨-, hread, -⟩ := Attempt.of_does_ofResult h
      cases hp : Glob.readAll selection.effectiveIncludes <;> simp_all
    rcases Attempt.of_does_bind h with ⟨_, ⟨⟩, h⟩ | ⟨_, excludes, _, _, -, -, h⟩
    · obtain ⟨-, hread, -⟩ := Attempt.of_does_ofResult h
      cases hp : Glob.readAll selection.excludes <;> simp_all
    rcases Attempt.of_does_bind h with ⟨_, ⟨⟩, h⟩ | ⟨_, files, _, _, -, -, h⟩
    · obtain ⟨cause, rfl, -⟩ := Attempt.of_does_of_error h
      exact .inr ⟨cause, rfl⟩
    · obtain ⟨-, ⟨⟩, -⟩ := h.unique (Attempt.does_pure server _ _)

theorem isDiscoveryError_of_findSources {plan : Plan} {s s' : σ} {asked : List Request}
    {e : BuildError} (h : (findSources plan).outcome.Does server s asked (.error e) s') :
    (∃ error, e = .pattern error) ∨ ∃ error, e = .walk error := by
  obtain ⟨_, present, _, _, -, -, h⟩ := Attempt.of_does_lift_bind h
  cases present with
  | false =>
    obtain ⟨-, ⟨⟩, -⟩ := h.unique (Attempt.does_pure server _ _)
  | true =>
    rcases Attempt.of_does_bind h with ⟨_, ⟨⟩, h⟩ | ⟨_, files, _, _, -, -, h⟩
    · exact isDiscoveryError_of_discover h
    · obtain ⟨_, _, _, _, -, -, h⟩ := Attempt.of_does_lift_bind h
      obtain ⟨-, ⟨⟩, -⟩ := h.unique (Attempt.does_pure server _ _)

theorem isWorkspaceError_of_makeWorkspace {parent : String} {s s' : σ} {asked : List Request}
    {e : BuildError} (h : (makeWorkspace parent).outcome.Does server s asked (.error e) s') :
    ∃ error, e = .workspace parent error := by
  rcases Attempt.of_does_bind h with ⟨_, ⟨⟩, h⟩ | ⟨_, _, _, _, -, -, h⟩
  all_goals
    obtain ⟨cause, rfl, -⟩ := Attempt.of_does_of_error h
    exact ⟨cause, rfl⟩

/-! ## Work inside a workspace -/

/-- Work inside a workspace is not begun if the workspace cannot be made, and else the
workspace is cleaned up once, whatever has come of the work. -/
theorem of_does_withWorkspace {α : Type} {parent : String} {body : String → Work α} {s s' : σ}
    {asked : List Request} {result : Except BuildError (α × Option CleanupError)}
    (h : (withWorkspace parent body).outcome.Does server s asked result s') :
    (∃ e, result = .error e ∧ (makeWorkspace parent).outcome.Does server s asked (.error e) s') ∨
      ∃ made workspace s₁ worked a s₂ removed failure,
        asked = made ++ (worked ++ removed) ∧ result = .ok (a, failure) ∧
        (makeWorkspace parent).outcome.Does server s made (.ok workspace) s₁ ∧
        (body workspace).Does server s₁ worked a s₂ ∧
        (cleanup workspace).Does server s₂ removed failure s' := by
  rcases Attempt.of_does_bind h with ⟨e, rfl, hmade⟩ | ⟨made, workspace, s₁, _, rfl, hmade, h⟩
  · exact .inl ⟨e, rfl, hmade⟩
  obtain ⟨worked, a, s₂, _, rfl, hbody, h⟩ := Attempt.of_does_lift_bind h
  obtain ⟨removed, failure, s₃, _, rfl, hremoved, h⟩ := Attempt.of_does_lift_bind h
  obtain ⟨rfl, rfl, rfl⟩ := h.unique (Attempt.does_pure server _ s₃)
  exact .inr ⟨made, workspace, s₁, worked, a, s₂, removed, failure, by rw [List.append_nil], rfl,
    hmade, hbody, hremoved⟩

/-! ## What a run reports -/

/-- The generator is called in a log. -/
def CallsGenerator (log : List Reply) : Prop :=
  ∃ r ∈ log, ∃ schemaFile output, r.call = .generate schemaFile output

/-- The generator is called in a log and fails. -/
def GeneratorFails (log : List Reply) : Prop :=
  ∃ schemaFile output cause, ⟨.generate schemaFile output, .error cause⟩ ∈ log

/-- The generator is the last call for a source. -/
theorem call_ne_generate_of_mem_before {workspace output text : String} {file : Candidate}
    {protocol : Protocol} {before rest : List Reply} {last : Reply}
    (h : sourceLog workspace output file text protocol = before ++ last :: rest) :
    ∀ r ∈ before, ∀ schemaFile output, r.call ≠ .generate schemaFile output := by
  have hbefore : before <+: (sourceLog workspace output file text protocol).dropLast := by
    rw [h, List.dropLast_append_of_ne_nil (List.cons_ne_nil _ _)]
    exact List.prefix_append ..
  intro r hr schemaFile output'
  have hmem := hbefore.subset hr
  rw [sourceLog] at hmem
  cases hstage : Stage.ofPath file.relative <;> rw [hstage] at hmem
  · simp only [List.dropLast, List.mem_cons, List.not_mem_nil, or_false] at hmem
    rcases hmem with rfl | rfl | rfl | rfl <;> simp
  · simp at hmem

/-- The log of a source that fails calls the generator only if the generator fails. -/
theorem Fails.callsGenerator_iff {workspace output : String} {file : Candidate} {log : List Reply}
    {cause : FailureCause} (h : Fails workspace output file log cause) :
    CallsGenerator log ↔ GeneratorFails log := by
  obtain ⟨text, protocol, before, ⟨call, answer⟩, rest, hrow, rfl⟩ := h
  constructor
  · rintro ⟨r, hr, schemaFile, output', hcall⟩
    rcases List.mem_append.1 hr with hr | hr
    · exact absurd hcall (call_ne_generate_of_mem_before hrow r hr _ _)
    · obtain rfl := List.mem_singleton.1 hr
      obtain rfl : call = .generate schemaFile output' := hcall
      exact ⟨schemaFile, output', cause, by simp⟩
  · rintro ⟨schemaFile, output', cause', hr⟩
    exact ⟨_, hr, schemaFile, output', rfl⟩

/-- Nothing but the generator is called for a canonical schema. -/
theorem Fails.generatorFails_of_canonicalSchema {workspace output : String} {file : Candidate}
    {log : List Reply} {cause : FailureCause} (h : Fails workspace output file log cause)
    (hstage : Stage.ofPath file.relative = .canonicalSchema) : GeneratorFails log := by
  obtain ⟨text, protocol, before, last, rest, hrow, rfl⟩ := h
  have hlast : last ∈ sourceLog workspace output file text protocol := by simp [hrow]
  rw [sourceLog, hstage, List.mem_singleton] at hlast
  subst hlast
  exact ⟨file.path, output, cause, by simp⟩

/-- The cause of a failure tells whether the generator fails. -/
theorem Fails.isGeneration_iff {steps : Steps} {workspace output : String} {file : Candidate}
    {log : List Reply} {cause : FailureCause} {s s' : σ} {asked : List Request}
    (h : Fails workspace output file log cause) (hlog : Logged steps server log s asked s') :
    (∃ error, cause = .generation error) ↔ GeneratorFails log := by
  obtain ⟨text, protocol, before, ⟨call, answer⟩, rest, hrow, rfl⟩ := h
  obtain ⟨_, _, _, hlast⟩ := hlog.exists_does (List.mem_append_right _ (List.mem_singleton_self _))
  rw [isGeneration_iff_of_does hlast]
  constructor
  · rintro ⟨schemaFile, output', rfl⟩
    exact ⟨schemaFile, output', cause, by simp⟩
  · rintro ⟨schemaFile, output', cause', hr⟩
    rcases List.mem_append.1 hr with hr | hr
    · exact absurd rfl (call_ne_generate_of_mem_before hrow _ hr schemaFile output')
    · exact ⟨schemaFile, output', (congrArg Reply.call (List.mem_singleton.1 hr)).symm⟩

/-- An error for a source tells at which step the source fails: at a step before the generator
is called, or in the generator. -/
def BlamesStep (e : BuildError) (failure : Failure) (log : List Reply) : Prop :=
  (e = .lowering failure ∧ failure.stage = .interfaceDefinition ↔ ¬ CallsGenerator log) ∧
    (e = .generation failure ∧ failure.stage = .canonicalSchema ↔ GeneratorFails log)

theorem eq_of_ofFailure {failure failure' : Failure}
    (h : BuildError.ofFailure failure' = .lowering failure ∨
      BuildError.ofFailure failure' = .generation failure) : failure' = failure := by
  unfold BuildError.ofFailure at h
  split at h <;> simpa using h

theorem ofFailure_eq_lowering_iff {failure : Failure} :
    BuildError.ofFailure failure = .lowering failure ↔ failure.stage = .interfaceDefinition := by
  unfold BuildError.ofFailure
  split <;> simp_all

theorem ofFailure_eq_generation_iff {failure : Failure} :
    BuildError.ofFailure failure = .generation failure ↔ failure.stage = .canonicalSchema := by
  unfold BuildError.ofFailure
  split <;> simp_all

/-- An error for a source comes from a log of the source that ends with a failure. -/
theorem exists_log_of_run_error {plan : Plan} {s : σ} {failure : Failure} {e : BuildError}
    (he : e = .lowering failure ∨ e = .generation failure)
    (h : ((run plan).outcome.run server s).1 = .error e) :
    e = .ofFailure failure ∧ ∃ workspace file log s₁ asked s₂,
      asked <:+: (run plan).outcome.requests server s ∧
      Logged plan.steps server log s₁ asked s₂ ∧
      Fails workspace plan.output file log failure.cause ∧
      failure = ⟨Stage.ofPath file.relative, file.relative, plan.output, failure.cause⟩ := by
  obtain ⟨asked, result, s', hdoes, hcourse⟩ := run_takes_course plan server s
  rw [hdoes.run] at h
  subst h
  rw [hdoes.requests]
  cases hcourse with
  | lost found =>
    obtain ⟨_, rfl⟩ | ⟨_, rfl⟩ := isDiscoveryError_of_findSources found <;> simp at he
  | homeless _ inside =>
    obtain ⟨_, ⟨⟩, hmade⟩ | ⟨_, _, _, _, _, _, _, _, _, ⟨⟩, _⟩ := of_does_withWorkspace inside
    obtain ⟨_, rfl⟩ := isWorkspaceError_of_makeWorkspace hmade
    simp at he
  | @stopped found _ _ _ _ _ _ _ _ inside =>
    obtain rfl := eq_of_ofFailure he
    obtain ⟨_, ⟨⟩, _⟩ | ⟨made, workspace, s₂, worked, _, s₃, removed, _, rfl, ⟨⟩, -, hbatch, -⟩ :=
      of_does_withWorkspace inside
    obtain ⟨log, worked, _, s₃, hlog, hdoes, hbatchLog⟩ :=
      exists_log_compile plan.steps server workspace plan.output _ s₂
    obtain ⟨rfl, rfl, rfl⟩ := hbatch.unique hdoes
    cases hbatchLog with
    | failure _ _ hfails log_eq =>
      subst log_eq
      obtain ⟨first, s₄, more, rfl, -, hlast⟩ := hlog.of_append
      refine ⟨rfl, workspace, _, _, s₄, more, s₃, ?_, hlast, hfails, rfl⟩
      exact ⟨found ++ made ++ first, removed, by simp⟩

/-- **An error for a source tells the stage at which the source entered the build**, and so it
tells the step at which the source fails unless the generator fails on a schema that the
source was lowered to. -/
theorem run_error_blames_stage (plan : Plan) (server : Server σ) (s : σ) (failure : Failure)
    (e : BuildError) (he : e = .lowering failure ∨ e = .generation failure)
    (h : ((run plan).outcome.run server s).1 = .error e) :
    ∃ workspace file log s₁ asked s₂,
      asked <:+: (run plan).outcome.requests server s ∧
      Logged plan.steps server log s₁ asked s₂ ∧
      Fails workspace plan.output file log failure.cause ∧
      failure = ⟨Stage.ofPath file.relative, file.relative, plan.output, failure.cause⟩ ∧
      (e = .lowering failure ↔ Stage.ofPath file.relative = .interfaceDefinition) ∧
      (e = .generation failure ↔ Stage.ofPath file.relative = .canonicalSchema) ∧
      ((∃ error, failure.cause = .generation error) ↔ GeneratorFails log) ∧
      (BlamesStep e failure log ↔
        ¬ (Stage.ofPath file.relative = .interfaceDefinition ∧ GeneratorFails log)) := by
  obtain ⟨rfl, workspace, file, log, s₁, asked, s₂, hasked, hlog, hfails, hfailure⟩ :=
    exists_log_of_run_error he h
  have hstage : failure.stage = Stage.ofPath file.relative := by rw [hfailure]
  refine ⟨workspace, file, log, s₁, asked, s₂, hasked, hlog, hfails, hfailure, ?_, ?_,
    hfails.isGeneration_iff hlog, ?_⟩
  · rw [ofFailure_eq_lowering_iff, hstage]
  · rw [ofFailure_eq_generation_iff, hstage]
  · rw [BlamesStep, ofFailure_eq_lowering_iff, ofFailure_eq_generation_iff, hstage,
      hfails.callsGenerator_iff]
    cases hpath : Stage.ofPath file.relative with
    | interfaceDefinition => simp
    | canonicalSchema => simp [hfails.generatorFails_of_canonicalSchema hpath]

/-- Surroundings with a single source, in which nothing fails. -/
def willing : Server Unit
  | .isDirectory _, s => (true, s)
  | .filesBelow _, s => (.ok [["note.idl"]], s)
  | .contents _, s => ([], s)
  | .readText _, s => (.ok "", s)
  | .makeFresh parent, s => (.ok (Path.join parent "run-1"), s)
  | .writeText .., s | .makeDirectories _, s | .removeFile _, s | .removeDirectory _, s =>
    (.ok (), s)
  | .watch _, s | .register _, s => ((), s)

/-- A plan whose generator refuses every schema. -/
def refusingPlan : Plan where
  source := "src"
  output := "out"
  workspaceRoot := "ws"
  selection := { includes := ["note.idl"] }
  steps := {
    lower := fun _ => .ok (.empty "Note" none)
    generate := fun _ _ => throw (.other "refused") }

/-- How the only source fails. -/
def refusal : Failure := ⟨.interfaceDefinition, "note.idl", "out", .generation (.other "refused")⟩

theorem candidates_note : candidates "src" ["note.idl".toList.map .literal] [] [["note.idl"]]
    = [⟨"note.idl", "src/note.idl"⟩] := by
  have hselected : isSelected ["note.idl".toList.map .literal] [] "note.idl" = true := by
    decide +kernel
  have hpath : relativePath ["note.idl"] = "note.idl" := by simp [relativePath]
  simp only [candidates, List.filter, hpath, hselected, List.map, List.mergeSort_singleton]
  rfl

theorem run_refusingPlan :
    ((run refusingPlan).outcome.run willing ()).1 = .error (.lowering refusal) := by
  have hfound : (findSources refusingPlan).outcome.run willing () = (.ok (some (candidates "src"
      ["note.idl".toList.map .literal] [] [["note.idl"]])), ()) := rfl
  rw [run_eq, Attempt.outcome_bind, Work.run_bind, hfound, candidates_note]
  rfl

/-- An interface definition whose schema the generator refuses is reported as one that cannot
be lowered. -/
theorem refusingPlan_blames_lowering :
    ((run refusingPlan).outcome.run willing ()).1 = .error (.lowering refusal) ∧
      ∃ workspace file log, Fails workspace "out" file log (.generation (.other "refused")) ∧
        GeneratorFails log ∧ ¬ BlamesStep (.lowering refusal) refusal log := by
  obtain ⟨workspace, file, log, _, _, _, -, -, hfails, hfailure, -, -, hcause, hrule⟩ :=
    run_error_blames_stage refusingPlan willing () refusal _ (.inl rfl) run_refusingPlan
  have hstage : Stage.ofPath file.relative = .interfaceDefinition :=
    (congrArg Failure.stage hfailure).symm
  have hgenerator := hcause.1 ⟨_, rfl⟩
  exact ⟨run_refusingPlan, workspace, file, log, hfails, hgenerator,
    hrule.not.2 (not_not.2 ⟨hstage, hgenerator⟩)⟩

end IdlCompiler.Build
