/-
# Batches in a workspace

What a batch makes itself, it makes in the workspace; everything else is made by the generator.
So a batch with a generator that keeps to an area changes nothing outside this area and the
workspace.

Main statements: `Working.of_does_perform`, a single call, and `working_of_does_compile`, a
whole batch.
-/
import IdlCompiler.Build.Run
import IdlCompiler.Proofs.Deliveries
import IdlCompiler.Proofs.Removal
import IdlCompiler.Proofs.Sources

namespace IdlCompiler.Build

open FileTree
open IdlCompiler.Path (IsName walked joinAll)

variable {t u v : FileTree} {place : Location} {workspace output : String}
  {way : List Location} {steps : Steps} {asked : List Request} {area : Location → Prop}

/-! ## Generators -/

/-- A path passes a place or leads to it. -/
def Passes (t : FileTree) (path : String) (m : Location) : Prop :=
  ∃ way l, t.Leads .entry maxLinks [] (walked path) way l ∧ (m ∈ way ∨ m = l)

/-- In trees with no links but those of `t`, the generator of a plan changes nothing outside an
area, and it does not cut off the directories of runs. -/
structure Plan.IsConfined (plan : Plan) (area : Location → Prop) (t : FileTree) : Prop where
  outside : ∀ u schemaFile asked result v, u.WellFormed → u.HasLinksOf t →
    (plan.steps.generate schemaFile plan.output).outcome.Does serve u asked result v →
    ∀ l, ¬ area l → v.entryAt? l = u.entryAt? l
  keepsWay : ∀ u schemaFile asked result v n, u.WellFormed → u.HasLinksOf t →
    (plan.steps.generate schemaFile plan.output).outcome.Does serve u asked result v →
    ∀ l, Passes u (Path.join plan.workspaceRoot (freshName n)) l → u.Stays v l

/-- The generator of this library makes deliveries. -/
theorem exists_delivers {schemaFile : String} {answer : Except GenerationError Unit}
    (h : (Steps.standard.generate schemaFile output).outcome.Does serve t asked answer u) :
    ∃ result, Delivers schemaFile output t result u ∧
      (answer = .ok () → ∃ target, result = .ok target) := by
  rcases Attempt.of_does_bind h with ⟨e, rfl, hfailed⟩ | ⟨_, target, s, _, -, hdone, hend⟩
  · exact ⟨_, delivers_of_does hfailed, by simp⟩
  · obtain ⟨-, rfl, rfl⟩ := hend.unique (Attempt.does_pure serve _ s)
    exact ⟨_, delivers_of_does hdone, fun _ => ⟨target, rfl⟩⟩

/-- The calls that are made for a source. -/
inductive IsCallFor (workspace output : String) (file : Candidate) : Call → Prop
  | read : IsCallFor workspace output file (.read file.path)
  | lower (text : String) : IsCallFor workspace output file (.lower text)
  | makeDirectories :
    IsCallFor workspace output file (.makeDirectories (Path.parent (loweredFile workspace file)))
  | write (text : String) :
    IsCallFor workspace output file (.write (loweredFile workspace file) text)
  | generate (schemaFile : String) :
    IsCallFor workspace output file (.generate schemaFile output)

theorem isCallFor_of_mem_sourceLog {file : Candidate} {text : String} {protocol : Protocol}
    {r : Reply} (h : r ∈ sourceLog workspace output file text protocol) :
    IsCallFor workspace output file r.call := by
  rw [sourceLog] at h
  split at h
  · simp only [List.mem_cons, List.not_mem_nil, or_false] at h
    rcases h with rfl | rfl | rfl | rfl | rfl
    exacts [.read, .lower _, .makeDirectories, .write _, .generate _]
  · rw [List.mem_singleton.mp h]
    exact .generate _

theorem isCallFor_of_isBatchLog {files : List Candidate} {log : List Reply} {outcome : Outcome}
    (h : IsBatchLog workspace output files log outcome) :
    ∀ r ∈ log, ∃ file ∈ files, IsCallFor workspace output file r.call := by
  have hcomplete {files : List Candidate} {logs : List (List Reply)}
      (h : List.Forall₂ (Completes workspace output) files logs) :
      ∀ r ∈ logs.flatten, ∃ file ∈ files, IsCallFor workspace output file r.call := by
    induction h with
    | nil => simp
    | cons hfirst _ ih =>
      obtain ⟨text, protocol, rfl⟩ := hfirst
      intro r hr
      rcases List.mem_append.mp (List.flatten_cons ▸ hr) with hr | hr
      · exact ⟨_, List.mem_cons_self, isCallFor_of_mem_sourceLog hr⟩
      · obtain ⟨file, hfile, hcall⟩ := ih r hr
        exact ⟨file, List.mem_cons_of_mem _ hfile, hcall⟩
  cases h with
  | success complete log_eq => exact log_eq ▸ hcomplete complete
  | failure files_eq complete fails log_eq =>
    subst files_eq log_eq
    intro r hr
    rcases List.mem_append.mp hr with hr | hr
    · obtain ⟨file, hfile, hcall⟩ := hcomplete complete r hr
      exact ⟨file, List.mem_append_left _ hfile, hcall⟩
    · obtain ⟨text, protocol, before, last, rest, hrow, rfl⟩ := fails
      refine ⟨_, List.mem_append_right _ List.mem_cons_self, ?_⟩
      rcases List.mem_append.mp hr with hr | hr
      · exact isCallFor_of_mem_sourceLog (hrow ▸ List.mem_append_left _ hr)
      · rw [List.mem_singleton.mp hr]
        have hlast : last ∈ before ++ last :: rest := by simp
        exact isCallFor_of_mem_sourceLog (r := last) (hrow ▸ hlast)

/-- What every call of a batch preserves, the batch preserves. -/
theorem compile_induction {I : FileTree → Prop} {files : List Candidate} {outcome : Outcome}
    (hstep : ∀ file ∈ files, ∀ (c : Call) (u : FileTree) (asked : List Request)
      (answer : Except FailureCause c.Value) (v : FileTree), IsCallFor workspace output file c →
        I u → (c.perform steps).outcome.Does serve u asked answer v → I v)
    (hstart : I t) (h : (compile steps workspace output files).Does serve t asked outcome u) :
    I u := by
  obtain ⟨log, _, _, _, hlog, hdoes, hbatch⟩ :=
    exists_log_compile steps serve workspace output files t
  obtain ⟨-, rfl, rfl⟩ := h.unique hdoes
  have hcalls := isCallFor_of_isBatchLog hbatch
  clear hdoes hbatch h
  induction hlog with
  | nil => exact hstart
  | cons hfirst _ ih =>
    obtain ⟨⟨file, hfile, hcall⟩, hrest⟩ := List.forall_mem_cons.mp hcalls
    exact ih (hstep file hfile _ _ _ _ _ hcall hstart hfirst) hrest

/-! ## Steps of a batch -/

/-- A tree in the course of a batch: the workspace is there, and nothing has changed outside of
it and the area of the generator. -/
structure Working (workspace : String) (place : Location) (way : List Location)
    (area : Location → Prop) (opened u : FileTree) : Prop where
  workspace : u.IsWorkspace workspace place way
  changes : Changes opened u
  outside : ∀ l, ¬ area l → ¬ place <+: l → u.entryAt? l = opened.entryAt? l

theorem Working.of_grows (h : Working workspace place way area t u)
    (hgrows : Grows (fun l => place <+: l ∧ l ≠ place) u v) :
    Working workspace place way area t v where
  workspace := h.workspace.of_grows hgrows
  changes := h.changes.trans hgrows.changes
  outside := fun l harea hl => by
    rw [hgrows.entryAt?_eq fun hbelow => hl hbelow.1, h.outside l harea hl]

/-- A source whose schema has a place in the workspace. -/
def HasRelativePath (file : Candidate) : Prop :=
  ∃ names ≠ [], (∀ a ∈ names, IsName a) ∧ file.relative = relativePath names

/-- What a call of a batch does to a tree, apart from the calls of the generator. -/
theorem grows_of_does_perform {file : Candidate} {c : Call} (hu : u.WellFormed)
    (hworkspace : u.IsWorkspace workspace place way) (hfile : HasRelativePath file)
    (hcall : IsCallFor workspace output file c) (hc : ∀ schemaFile, c ≠ .generate schemaFile output)
    {answer : Except FailureCause c.Value}
    (h : (c.perform steps).outcome.Does serve u asked answer v) :
    Grows (fun l => place <+: l ∧ l ≠ place) u v := by
  obtain ⟨names, hne, hnames, hrelative⟩ := hfile
  obtain ⟨below, last, hbelow, hlowered⟩ := exists_loweredFile_eq hne hnames
  have htarget := hlowered workspace file hrelative
  have hplain (a : String) (ha : a ∈ below ++ [last]) := (hbelow a ha).plain
  cases hcall with
  | read =>
    obtain ⟨_, -, h⟩ := Attempt.of_does_of h
    obtain ⟨-, -, rfl⟩ := h.unique (Work.does_request serve _ u)
    exact .refl
  | lower text =>
    obtain ⟨-, -, rfl⟩ := Attempt.of_does_ofResult h
    exact .refl
  | makeDirectories =>
    obtain ⟨_, -, h⟩ := Attempt.of_does_of h
    rw [h.of_request.2.2]
    refine hworkspace.makeDirectories_grows hu hplain ?_
    rw [htarget]
    exact (Path.walked_parent_isPrefix _).trans (Path.walked_joinAll hbelow ▸ List.prefix_rfl)
  | write text =>
    obtain ⟨_, -, h⟩ := Attempt.of_does_of h
    rw [h.of_request.2.2]
    cases hwrite : u.writeFile (loweredFile workspace file) text.toUTF8 with
    | error e =>
      rw [serve, hwrite]
      exact .refl
    | ok v =>
      rw [serve, hwrite]
      have hadds := hworkspace.writeFile_adds hu (List.append_ne_nil_of_right_ne_nil _ (by simp))
        hplain (htarget ▸ Path.steps_joinAll (by simp) hbelow) hwrite
      exact .single ⟨_, ⟨List.prefix_append .., by simp⟩, hadds⟩
  | generate schemaFile => exact absurd rfl (hc schemaFile)

/-- A call of a batch keeps to the workspace and to the area of the generator. -/
theorem Working.of_does_perform {plan : Plan} {n : Nat} {file : Candidate} {c : Call}
    {opened : FileTree} (hopened : opened.WellFormed) (hlinks : opened.HasLinksOf t)
    (hconfined : plan.IsConfined area t) (hfile : HasRelativePath file)
    (hworkspace : workspace = Path.join plan.workspaceRoot (freshName n))
    (h : Working workspace place way area opened u)
    (hcall : IsCallFor workspace plan.output file c)
    {answer : Except FailureCause c.Value}
    (hdoes : (c.perform plan.steps).outcome.Does serve u asked answer v) :
    Working workspace place way area opened v := by
  have hu := h.changes.wellFormed hopened
  by_cases hc : ∃ schemaFile, c = .generate schemaFile plan.output
  · obtain ⟨schemaFile, rfl⟩ := hc
    obtain ⟨_, -, hdoes⟩ := Attempt.of_does_adapt hdoes
    have hlinks' : u.HasLinksOf t := fun m target hm =>
      hlinks m target (h.changes.hasLinksOf m target hm)
    have hway (m : Location) (hm : m ∈ way ∨ m = place) : u.Stays v m :=
      hconfined.keepsWay u schemaFile _ _ v n hu hlinks' hdoes m
        ⟨way, place, hworkspace ▸ h.workspace.leads, hm⟩
    have hchanges : Changes u v := changes_of_does hu hdoes
    refine ⟨h.workspace.mono (fun m hm => hway m (.inl hm)) (hway place (.inr rfl))
      hchanges.hasLinksOf, h.changes.trans hchanges, fun l harea hl => ?_⟩
    rw [hconfined.outside u schemaFile _ _ v hu hlinks' hdoes l harea, h.outside l harea hl]
  · exact h.of_grows (grows_of_does_perform hu h.workspace hfile hcall
      (fun schemaFile heq => hc ⟨schemaFile, heq⟩) hdoes)

/-- **A batch keeps to its workspace and to the area of the generator.** -/
theorem working_of_does_compile {plan : Plan} {n : Nat} {files : List Candidate}
    {opened : FileTree} (hopened : opened.WellFormed) (hlinks : opened.HasLinksOf t)
    (hconfined : plan.IsConfined area t) (hfiles : ∀ file ∈ files, HasRelativePath file)
    (hname : workspace = Path.join plan.workspaceRoot (freshName n))
    (hworkspace : opened.IsWorkspace workspace place way) {outcome : Outcome}
    (hdoes : (compile plan.steps workspace plan.output files).Does serve opened asked outcome v) :
    Working workspace place way area opened v :=
  compile_induction (I := Working workspace place way area opened)
    (fun file hfile _ _ _ _ _ hcall h => h.of_does_perform hopened hlinks hconfined
      (hfiles file hfile) hname hcall)
    ⟨hworkspace, .refl, fun _ _ _ => rfl⟩ hdoes

end IdlCompiler.Build
