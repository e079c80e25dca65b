/-
# The calls of a batch

Compiling a source takes a fixed row of calls: an interface definition is read, lowered and
written into the workspace before code is generated for it, and for everything else code is
generated at once.  A log lists the calls that a batch makes with the answers to them, and
`Logged` says that the surroundings give these answers one after the other and that nothing
else is asked of them.

Main statement: `compile_stops_at_failure`, the log of a batch is made of the whole rows of
the sources in order, up to the first call that fails, which is the last call of all.  It
holds for all surroundings, so also for steps that remember earlier calls in them.
-/
import IdlCompiler.Build.Batch
import IdlCompiler.Proofs.Effects
import Mathlib.Data.List.Forall2

namespace IdlCompiler.Build

/-- A call that a batch makes: to its files, or to one of its two steps. -/
inductive Call where
  | read (path : String)
  | lower (text : String)
  | makeDirectories (path : String)
  | write (path text : String)
  | generate (schemaFile output : String)

namespace Call

/-- What a call gives if it does not fail. -/
@[reducible] def Value : Call → Type
  | read _ => String
  | lower _ => Protocol
  | makeDirectories _ | write _ _ | generate _ _ => Unit

/-- Makes a call. -/
def perform (steps : Steps) : (c : Call) → Attempt FailureCause c.Value
  | read path => .of .io (Work.readText path)
  | lower text => .ofResult ((steps.lower text).mapError .lowering)
  | makeDirectories path => .of .io (Work.makeDirectories path)
  | write path text => .of .io (Work.writeText path text)
  | generate schemaFile output => ExceptT.adapt .generation (steps.generate schemaFile output)

end Call

/-- A call and the answer to it. -/
structure Reply where
  call : Call
  answer : Except FailureCause call.Value

variable {σ α : Type} {steps : Steps} {server : Server σ} {workspace output : String}

/-- The calls of a log are made one after the other, with the answers that the log has.  Their
requests are all that is asked. -/
inductive Logged (steps : Steps) (server : Server σ) :
    List Reply → σ → List Request → σ → Prop where
  | nil (s : σ) : Logged steps server [] s [] s
  | cons {r : Reply} {log : List Reply} {s s' s'' : σ} {asked more : List Request}
      (first : (r.call.perform steps).outcome.Does server s asked r.answer s')
      (rest : Logged steps server log s' more s'') :
      Logged steps server (r :: log) s (asked ++ more) s''

theorem Logged.append {log log' : List Reply} {s s' s'' : σ} {asked more : List Request}
    (h : Logged steps server log s asked s') (h' : Logged steps server log' s' more s'') :
    Logged steps server (log ++ log') s (asked ++ more) s'' := by
  induction h with
  | nil => exact h'
  | cons first _ ih =>
    rw [List.append_assoc]
    exact .cons first (ih h')

theorem Logged.of_append {log log' : List Reply} {s s'' : σ} {asked : List Request}
    (h : Logged steps server (log ++ log') s asked s'') : ∃ first s' more, asked = first ++ more ∧
      Logged steps server log s first s' ∧ Logged steps server log' s' more s'' := by
  induction log generalizing s asked with
  | nil => exact ⟨[], s, asked, rfl, .nil s, h⟩
  | cons r log ih =>
    cases h with
    | cons hfirst hrest =>
      obtain ⟨first, s', more, rfl, hlog, hlog'⟩ := ih hrest
      exact ⟨_, s', more, (List.append_assoc ..).symm, .cons hfirst hlog, hlog'⟩

/-- The cause of a failure tells whether the generator was called. -/
theorem isGeneration_iff_of_does {c : Call} {cause : FailureCause} {s s' : σ}
    {asked : List Request} (h : (c.perform steps).outcome.Does server s asked (.error cause) s') :
    (∃ e, cause = .generation e) ↔ ∃ schemaFile output, c = .generate schemaFile output := by
  cases c with
  | lower text =>
    obtain ⟨-, hanswer, -⟩ := Attempt.of_does_ofResult h
    cases hp : steps.lower text <;> simp_all
  | generate schemaFile output =>
    obtain ⟨answer, hanswer, -⟩ := Attempt.of_does_adapt h
    cases answer <;> simp_all
  | read _ | makeDirectories _ | write _ _ =>
    obtain ⟨answer, hanswer, -⟩ := Attempt.of_does_of h
    cases answer <;> simp_all

theorem Logged.exists_does {log : List Reply} {s s' : σ} {asked : List Request} {r : Reply}
    (h : Logged steps server log s asked s') (hr : r ∈ log) : ∃ s₁ part s₂,
      (r.call.perform steps).outcome.Does server s₁ part r.answer s₂ := by
  induction h with
  | nil => simp at hr
  | cons first _ ih =>
    rcases List.mem_cons.1 hr with rfl | hr
    · exact ⟨_, _, _, first⟩
    · exact ih hr

/-! ## What the log of a source looks like -/

/-- The path of the schema that a source is lowered to. -/
def loweredFile (workspace : String) (file : Candidate) : String :=
  Path.join workspace (loweredPath file.relative)

/-- The calls for a source if none of them fails, where `text` is what the source holds and
`protocol` what it is lowered to. -/
def sourceLog (workspace output : String) (file : Candidate) (text : String)
    (protocol : Protocol) : List Reply :=
  match Stage.ofPath file.relative with
  | .interfaceDefinition => [
      ⟨.read file.path, .ok text⟩,
      ⟨.lower text, .ok protocol⟩,
      ⟨.makeDirectories (Path.parent (loweredFile workspace file)), .ok ()⟩,
      ⟨.write (loweredFile workspace file) protocol.canonicalText, .ok ()⟩,
      ⟨.generate (loweredFile workspace file) output, .ok ()⟩]
  | .canonicalSchema => [⟨.generate file.path output, .ok ()⟩]

/-- The entry for a source that has been compiled. -/
def compiledFile (workspace : String) (file : Candidate) : CompiledFile where
  relative := file.relative
  stage := Stage.ofPath file.relative
  lowered := match Stage.ofPath file.relative with
    | .interfaceDefinition => some (loweredFile workspace file)
    | .canonicalSchema => none

/-- A log shows all calls for a source, and none of them fails. -/
def Completes (workspace output : String) (file : Candidate) (log : List Reply) : Prop :=
  ∃ text protocol, log = sourceLog workspace output file text protocol

/-- A log shows the calls for a source up to the first that fails, which is the last. -/
def Fails (workspace output : String) (file : Candidate) (log : List Reply)
    (cause : FailureCause) : Prop :=
  ∃ text protocol before last rest,
    sourceLog workspace output file text protocol = before ++ last :: rest ∧
      log = before ++ [⟨last.call, .error cause⟩]

/-! ## The log of a source -/

/-- From every state an attempt has a log with a result that a statement allows. -/
def HasLog (steps : Steps) (server : Server σ) (a : Attempt FailureCause α)
    (allowed : List Reply → Except FailureCause α → Prop) : Prop :=
  ∀ s, ∃ log asked result s', Logged steps server log s asked s' ∧
    a.outcome.Does server s asked result s' ∧ allowed log result

theorem hasLog_pure {x : α} {allowed : List Reply → Except FailureCause α → Prop}
    (h : allowed [] (.ok x)) : HasLog steps server (pure x) allowed :=
  fun s => ⟨[], [], .ok x, s, .nil s, Attempt.does_pure server x s, h⟩

/-- A call and what follows it: what follows is not begun if the call fails. -/
theorem hasLog_perform_bind {c : Call} {f : c.Value → Attempt FailureCause α}
    {allowed : List Reply → Except FailureCause α → Prop}
    (herror : ∀ cause, allowed [⟨c, .error cause⟩] (.error cause))
    (hok : ∀ x, HasLog steps server (f x) fun log result => allowed (⟨c, .ok x⟩ :: log) result) :
    HasLog steps server (c.perform steps >>= f) allowed := by
  intro s
  have hfirst := Work.does_self server (c.perform steps).outcome s
  cases hanswer : ((c.perform steps).outcome.run server s).1 with
  | error cause =>
    rw [hanswer] at hfirst
    exact ⟨_, _, _, _, .cons (r := ⟨c, .error cause⟩) hfirst (.nil _),
      List.append_nil _ ▸ Attempt.does_bind_error hfirst, herror cause⟩
  | ok x =>
    rw [hanswer] at hfirst
    obtain ⟨log, asked, result, s', hlog, hrest, hallowed⟩ := hok x _
    exact ⟨_, _, _, _, .cons (r := ⟨c, .ok x⟩) hfirst hlog, Attempt.does_bind_ok hfirst hrest,
      hallowed⟩

theorem lowerSource_eq (steps : Steps) (workspace : String) (file : Candidate) :
    lowerSource steps workspace file = (do
      let text ← (Call.read file.path).perform steps
      let protocol ← (Call.lower text).perform steps
      (Call.makeDirectories (Path.parent (loweredFile workspace file))).perform steps
      (Call.write (loweredFile workspace file) protocol.canonicalText).perform steps
      pure (loweredFile workspace file)) := rfl

theorem compileSource_eq (steps : Steps) (workspace output : String) (file : Candidate) :
    compileSource steps workspace output file = (do
      let lowered ← schemaFile steps workspace file
      (Call.generate (lowered.getD file.path) output).perform steps
      pure { relative := file.relative, stage := Stage.ofPath file.relative, lowered }) := rfl

/-- What may come of the compilation of a source. -/
def IsSourceLog (workspace output : String) (file : Candidate) (log : List Reply) :
    Except FailureCause CompiledFile → Prop
  | .ok entry => entry = compiledFile workspace file ∧ Completes workspace output file log
  | .error cause => Fails workspace output file log cause

/-- A source is compiled by its row of calls, up to the first that fails. -/
theorem hasLog_compileSource (steps : Steps) (server : Server σ) (workspace output : String)
    (file : Candidate) : HasLog steps server (compileSource steps workspace output file)
      (IsSourceLog workspace output file) := by
  rw [compileSource_eq, schemaFile]
  cases hstage : Stage.ofPath file.relative with
  | canonicalSchema =>
    have hrow (text protocol) : sourceLog workspace output file text protocol
        = [⟨.generate file.path output, .ok ()⟩] := by rw [sourceLog, hstage]
    simp only [pure_bind, Option.getD_none]
    refine hasLog_perform_bind (fun cause => ?_) fun _ => hasLog_pure ?_
    · exact ⟨"", .empty "" none, [], _, [], hrow _ _, rfl⟩
    · exact ⟨by rw [compiledFile, hstage], "", .empty "" none, (hrow _ _).symm⟩
  | interfaceDefinition =>
    have hrow (text protocol) : sourceLog workspace output file text protocol = [
        ⟨.read file.path, .ok text⟩, ⟨.lower text, .ok protocol⟩,
        ⟨.makeDirectories (Path.parent (loweredFile workspace file)), .ok ()⟩,
        ⟨.write (loweredFile workspace file) protocol.canonicalText, .ok ()⟩,
        ⟨.generate (loweredFile workspace file) output, .ok ()⟩] := by rw [sourceLog, hstage]
    simp only [lowerSource_eq, map_eq_pure_bind, bind_assoc, pure_bind, Option.getD_some]
    refine hasLog_perform_bind (fun cause => ?_) fun text => ?_
    · exact ⟨"", .empty "" none, [], _, _, hrow _ _, rfl⟩
    refine hasLog_perform_bind (fun cause => ?_) fun protocol => ?_
    · exact ⟨text, .empty "" none, [_], _, _, hrow _ _, rfl⟩
    refine hasLog_perform_bind (fun cause => ?_) fun _ => ?_
    · exact ⟨text, protocol, [_, _], _, _, hrow _ _, rfl⟩
    refine hasLog_perform_bind (fun cause => ?_) fun _ => ?_
    · exact ⟨text, protocol, [_, _, _], _, _, hrow _ _, rfl⟩
    refine hasLog_perform_bind (fun cause => ?_) fun _ => hasLog_pure ?_
    · exact ⟨text, protocol, [_, _, _, _], _, _, hrow _ _, rfl⟩
    · exact ⟨by rw [compiledFile, hstage], text, protocol, (hrow _ _).symm⟩

/-- A source for which no call fails is compiled. -/
theorem does_compileSource_of_logged {file : Candidate} {text : String} {protocol : Protocol}
    {s s' : σ} {asked : List Request}
    (h : Logged steps server (sourceLog workspace output file text protocol) s asked s') :
    (compileSource steps workspace output file).outcome.Does server s asked
      (.ok (compiledFile workspace file)) s' := by
  rw [sourceLog] at h
  rw [compileSource_eq]
  cases hstage : Stage.ofPath file.relative with
  | canonicalSchema =>
    rw [hstage] at h
    obtain _ | ⟨hgenerate, ⟨⟩⟩ := h
    have hschema : (schemaFile steps workspace file).outcome.Does server s [] (.ok none) s := by
      rw [schemaFile, hstage]
      exact Attempt.does_pure server none s
    change Work.Does _ _ _ ([] ++ (_ ++ [])) _ _
    refine Attempt.does_bind_ok hschema (Attempt.does_bind_ok hgenerate ?_)
    simpa [compiledFile, hstage] using Attempt.does_pure server (compiledFile workspace file) s'
  | interfaceDefinition =>
    rw [hstage] at h
    have hschema {first : List Request} {v : σ}
        (hdoes : (lowerSource steps workspace file).outcome.Does
          server s first (.ok (loweredFile workspace file)) v) :
        (schemaFile steps workspace file).outcome.Does server s first
          (.ok (some (loweredFile workspace file))) v := by
      rw [schemaFile, hstage]
      exact hdoes.bind_done rfl
    change Logged _ _ ([_, _, _, _] ++ [_]) _ _ _ at h
    obtain ⟨_, _, _, rfl, hlog, hlast⟩ := h.of_append
    obtain _ | ⟨hgenerate, ⟨⟩⟩ := hlast
    obtain _ | ⟨hread, _ | ⟨hlower, _ | ⟨hmake, _ | ⟨hwrite, ⟨⟩⟩⟩⟩⟩ := hlog
    have hlowered : (lowerSource steps workspace file).outcome.Does server s _
        (.ok (loweredFile workspace file)) _ :=
      Attempt.does_bind_ok hread (Attempt.does_bind_ok hlower
        (Attempt.does_bind_ok hmake (Attempt.does_bind_ok hwrite
          (Attempt.does_pure server (loweredFile workspace file) _))))
    refine Attempt.does_bind_ok (hschema hlowered) (Attempt.does_bind_ok hgenerate ?_)
    simpa [compiledFile, hstage] using Attempt.does_pure server (compiledFile workspace file) s'

/-! ## The log of a batch -/

/-- What may come of a batch: all its sources compile, or one of them fails at some call after
the sources before it have been compiled. -/
inductive IsBatchLog (workspace output : String) (files : List Candidate) (log : List Reply) :
    Outcome → Prop where
  | success {logs : List (List Reply)}
      (complete : List.Forall₂ (Completes workspace output) files logs)
      (log_eq : log = logs.flatten) :
      IsBatchLog workspace output files log (.success (files.map (compiledFile workspace)))
  | failure {before after : List Candidate} {file : Candidate} {logs : List (List Reply)}
      {last : List Reply} {cause : FailureCause}
      (files_eq : files = before ++ file :: after)
      (complete : List.Forall₂ (Completes workspace output) before logs)
      (fails : Fails workspace output file last cause)
      (log_eq : log = logs.flatten ++ last) :
      IsBatchLog workspace output files log (.failure (before.map (compiledFile workspace))
        ⟨Stage.ofPath file.relative, file.relative, output, cause⟩)

/-- One more source in front of a batch that has been compiled. -/
theorem IsBatchLog.cons {files : List Candidate} {file : Candidate} {first log : List Reply}
    {outcome : Outcome} (hfirst : Completes workspace output file first)
    (h : IsBatchLog workspace output files log outcome) :
    IsBatchLog workspace output (file :: files) (first ++ log)
      (outcome.prepend (compiledFile workspace file)) := by
  cases h with
  | success complete log_eq =>
    subst log_eq
    exact .success (.cons hfirst complete) List.flatten_cons.symm
  | failure files_eq complete fails log_eq =>
    subst files_eq log_eq
    refine .failure (List.cons_append).symm (.cons hfirst complete) fails ?_
    rw [List.flatten_cons, List.append_assoc]

/-- A batch has a log. -/
theorem exists_log_compile (steps : Steps) (server : Server σ) (workspace output : String)
    (files : List Candidate) (s : σ) : ∃ log asked outcome s', Logged steps server log s asked s' ∧
      (compile steps workspace output files).Does server s asked outcome s' ∧
      IsBatchLog workspace output files log outcome := by
  induction files generalizing s with
  | nil => exact ⟨[], [], _, s, .nil s, Work.does_done server _ s, .success .nil rfl⟩
  | cons file files ih =>
    obtain ⟨first, asked, result, s', hlog, hdoes, hfirst⟩ :=
      hasLog_compileSource steps server workspace output file s
    cases result with
    | error cause =>
      exact ⟨first, asked, _, s', hlog, hdoes.bind_done rfl,
        .failure (List.nil_append _).symm .nil hfirst rfl⟩
    | ok entry =>
      obtain ⟨rfl, hfirst⟩ := hfirst
      obtain ⟨log, more, outcome, s'', hlog', hdoes', hbatch⟩ := ih s'
      exact ⟨first ++ log, asked ++ more, _, s'', hlog.append hlog',
        hdoes.bind (hdoes'.bind_done rfl), hbatch.cons hfirst⟩

/-- A batch in which no call fails is a success. -/
theorem does_compile_of_logged {files : List Candidate} {logs : List (List Reply)}
    (hlogs : List.Forall₂ (Completes workspace output) files logs) {s s' : σ}
    {asked : List Request} (h : Logged steps server logs.flatten s asked s') :
    (compile steps workspace output files).Does server s asked
      (.success (files.map (compiledFile workspace))) s' := by
  induction hlogs generalizing s asked with
  | nil =>
    cases h
    exact Work.does_done server _ _
  | cons hfirst _ ih =>
    obtain ⟨text, protocol, rfl⟩ := hfirst
    obtain ⟨_, _, _, rfl, hlog, hrest⟩ := h.of_append
    exact (does_compileSource_of_logged hlog).bind ((ih hrest).map _)

/-- **A batch stops at the first call that fails.**  Its log has all calls of the sources in
order, up to this call; the calls before it are answered, and nothing is asked that is not
asked by a call of the log.  If there is no such call, the outcome has an entry for every
source, and else an entry for every source before the one that fails, and its stage, its
path, the output directory and the cause. -/
theorem compile_stops_at_failure (steps : Steps) (server : Server σ) (workspace output : String)
    (files : List Candidate) (s : σ) :
    let batch := compile steps workspace output files
    ∃ log, Logged steps server log s (batch.requests server s) (batch.run server s).2 ∧
      IsBatchLog workspace output files log (batch.run server s).1 := by
  obtain ⟨log, asked, outcome, s', hlog, hdoes, hbatch⟩ :=
    exists_log_compile steps server workspace output files s
  refine ⟨log, ?_, ?_⟩
  · rwa [hdoes.requests, hdoes.run]
  · rwa [hdoes.run]

end IdlCompiler.Build
