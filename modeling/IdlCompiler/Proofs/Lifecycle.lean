/-
# The life cycle of a run

A run looks for its sources first and changes nothing before it has told the build system about
them.  Then it opens a directory of its own, compiles the sources in it, and removes it again,
whatever has come of the sources.  `Lifecycle` says this with all that is asked and with the
tree that is left.

Main statement: `run_keeps_lifecycle`.
-/
import IdlCompiler.Proofs.Confinement
import IdlCompiler.Proofs.Courses

namespace IdlCompiler.Build

open FileTree
open IdlCompiler.Path (IsName walked joinAll)

variable {t u v : FileTree} {plan : Plan} {asked : List Request} {area : Location → Prop}

/-! ## What is told to the build system -/

/-- A request that tells the build system something. -/
def IsHostCall : Request → Prop
  | .watch _ | .register _ => True
  | _ => False

instance : DecidablePred IsHostCall
  | .watch _ | .register _ => isTrue trivial
  | .isDirectory _ | .filesBelow _ | .contents _ | .readText _ | .writeText .. |
    .makeDirectories _ | .makeFresh _ | .removeFile _ | .removeDirectory _ => isFalse id

/-- The generator of a plan tells the build system nothing. -/
def Plan.IsQuiet (plan : Plan) : Prop :=
  ∀ schemaFile,
    (plan.steps.generate schemaFile plan.output).outcome.Asks fun r => ¬ IsHostCall r

/-- The generator of this library reads, makes directories and writes. -/
theorem Plan.isQuiet_of_standard (hsteps : plan.steps = .standard) : plan.IsQuiet := by
  have hrequest {r : Request} (h : ¬ IsHostCall r) :
      (Work.request r).Asks fun r => ¬ IsHostCall r := Work.asks_request h
  have hwrite (path text : String) : (writeChanged path text).Asks fun r => ¬ IsHostCall r := by
    refine Work.Asks.bind (hrequest id) fun present => ?_
    cases present with
    | error e => exact hrequest id
    | ok present =>
      dsimp only
      split
      · exact .done _
      · exact hrequest id
  intro schemaFile
  rw [hsteps]
  refine Attempt.asks_bind (Attempt.asks_bind (Attempt.asks_of (hrequest id)) fun text => ?_)
    fun _ => Attempt.asks_pure _
  refine Attempt.asks_bind (Attempt.asks_ofResult _) fun (parts, code) => ?_
  refine Attempt.asks_bind (Attempt.asks_of (hrequest id)) fun _ => ?_
  exact Attempt.asks_bind (Attempt.asks_of (hwrite _ _)) fun _ => Attempt.asks_pure _

theorem not_isHostCall_of_isLook {r : Request} (h : IsLook r) : ¬ IsHostCall r := by
  cases r <;> simp_all [IsLook, IsHostCall]

theorem Logged.forall_asked {P : Request → Prop} {steps : Steps} {log : List Reply}
    (h : Logged steps serve log t asked u)
    (hcalls : ∀ r ∈ log, (r.call.perform steps).outcome.Asks P) : ∀ r ∈ asked, P r := by
  induction h with
  | nil => simp
  | cons first _ ih =>
    obtain ⟨hfirst, hrest⟩ := List.forall_mem_cons.mp hcalls
    intro r hr
    rcases List.mem_append.mp hr with hr | hr
    · exact hfirst.of_does first r hr
    · exact ih hrest r hr

theorem Plan.IsQuiet.asks_perform (h : plan.IsQuiet) {workspace : String} {file : Candidate}
    {c : Call} (hc : IsCallFor workspace plan.output file c) :
    (c.perform plan.steps).outcome.Asks fun r => ¬ IsHostCall r := by
  cases hc with
  | read | makeDirectories | write =>
    exact Attempt.asks_of (Work.asks_request (by simp [IsHostCall]))
  | lower => exact Attempt.asks_ofResult _
  | generate schemaFile => exact Attempt.asks_adapt (h schemaFile)

theorem Plan.IsQuiet.of_does_compile (h : plan.IsQuiet) {workspace : String}
    {files : List Candidate} {outcome : Outcome}
    (hdoes : (compile plan.steps workspace plan.output files).Does serve t asked outcome u) :
    ∀ r ∈ asked, ¬ IsHostCall r := by
  obtain ⟨log, _, _, _, hlog, hdoes', hbatch⟩ :=
    exists_log_compile plan.steps serve workspace plan.output files t
  obtain ⟨rfl, -, -⟩ := hdoes.unique hdoes'
  refine hlog.forall_asked fun r hr => ?_
  obtain ⟨file, -, hcall⟩ := isCallFor_of_isBatchLog hbatch r hr
  exact h.asks_perform hcall

/-- A request that a removal is made of. -/
def IsClearing : Request → Prop
  | .contents _ | .removeFile _ | .removeDirectory _ => True
  | _ => False

theorem not_isHostCall_of_isClearing {r : Request} (h : IsClearing r) : ¬ IsHostCall r := by
  cases r <;> simp_all [IsClearing, IsHostCall]

theorem asks_cleanup (path : String) : (cleanup path).Asks IsClearing := by
  have hremove (isDirectory : Bool) (p : String) :
      (Work.remove isDirectory p).Asks IsClearing := by
    cases isDirectory <;> exact Work.asks_request trivial
  have hentries (entries : List Remains) :
      (removeEntries path entries).outcome.Asks IsClearing := by
    induction entries with
    | nil => exact Attempt.asks_pure _
    | cons entry entries ih =>
      obtain ⟨names, e | isDirectory⟩ := entry
      · exact Attempt.asks_throw _
      · exact Attempt.asks_bind (Attempt.asks_of (hremove isDirectory _)) fun _ => ih
  refine Work.Asks.bind (Attempt.asks_bind (Attempt.asks_lift (Work.asks_request trivial))
    hentries) ?_
  rintro (e | _) <;> exact .done _

/-! ## The parts of a run on a file tree -/

/-- What a run does until its sources are found: it looks, and it tells the build system about
the source directory once all of them are found. -/
inductive Search (plan : Plan) (t : FileTree) :
    List Request → Except BuildError (Option (List Candidate)) → Prop
  /-- There is no source directory. -/
  | absent {looks : List Request} (looking : ∀ r ∈ looks, IsLook r)
      (missing : t.isDirectory plan.source = false) : Search plan t looks (.ok none)
  /-- The sources cannot be found out. -/
  | failed {looks : List Request} {found : List Request} {e : BuildError}
      (looking : ∀ r ∈ looks, IsLook r) (present : t.isDirectory plan.source = true)
      (discovered : (discover plan.source plan.selection).outcome.Does serve t found (.error e) t) :
      Search plan t looks (.error e)
  /-- The sources are found. -/
  | found {looks : List Request} {found : List Request} {files : List Candidate}
      (looking : ∀ r ∈ looks, IsLook r) (present : t.isDirectory plan.source = true)
      (discovered : (discover plan.source plan.selection).outcome.Does serve t found (.ok files)
        t) :
      Search plan t (looks ++ [.watch plan.source]) (.ok (some files))

/-- Looking for sources changes nothing. -/
theorem of_does_findSources {result : Except BuildError (Option (List Candidate))}
    (h : (findSources plan).outcome.Does serve t asked result u) :
    u = t ∧ Search plan t asked result := by
  obtain ⟨first, present, s₁, more, rfl, hpresent, h₁⟩ := Attempt.of_does_lift_bind h
  obtain ⟨rfl, hanswer, hs₁⟩ := hpresent.of_request
  obtain rfl : t = s₁ := hs₁.symm
  have hdirectory : t.isDirectory plan.source = present := hanswer.symm
  cases present with
  | false =>
    obtain ⟨rfl, rfl, rfl⟩ := h₁.unique (Attempt.does_pure serve _ _)
    exact ⟨rfl, .absent (by simp [IsLook]) hdirectory⟩
  | true =>
    have hdiscover := asks_discover plan.source plan.selection
    rcases Attempt.of_does_bind h₁ with ⟨e, rfl, hfailed⟩ | ⟨found, files, s₂, _, rfl, hfound, h₂⟩
    · obtain rfl := hdiscover.eq_of_does eq_of_isLook hfailed
      refine ⟨rfl, .failed ?_ hdirectory hfailed⟩
      exact List.forall_mem_cons.mpr ⟨trivial, hdiscover.of_does hfailed⟩
    · obtain rfl : t = s₂ := (hdiscover.eq_of_does eq_of_isLook hfound).symm
      obtain ⟨_, _, s₃, _, rfl, hwatch, h₃⟩ := Attempt.of_does_lift_bind h₂
      obtain ⟨rfl, -, hs₃⟩ := hwatch.of_request
      obtain rfl : t = s₃ := hs₃.symm
      obtain ⟨rfl, rfl, rfl⟩ := h₃.unique (Attempt.does_pure serve _ _)
      refine ⟨rfl, ?_⟩
      rw [List.append_nil, ← List.append_assoc]
      refine .found ?_ hdirectory hfound
      exact List.forall_mem_cons.mpr ⟨trivial, hdiscover.of_does hfound⟩

/-- A directory for the run is made after the directory that it is to stand in. -/
theorem of_does_makeWorkspace {root : String} {result : Except BuildError String}
    (h : (makeWorkspace root).outcome.Does serve t asked result u) :
    (∃ e, result = .error (.workspace root e) ∧ u = (t.makeDirectories root).2 ∧
      (asked = [.makeDirectories root] ∨ asked = [.makeDirectories root, .makeFresh root])) ∨
    ∃ workspace, result = .ok workspace ∧
      (t.makeDirectories root).2.makeFresh root = .ok (workspace, u) ∧
      asked = [.makeDirectories root, .makeFresh root] := by
  rcases Attempt.of_does_bind h with ⟨e, rfl, hfailed⟩ | ⟨_, _, s₁, _, rfl, hmade, h₁⟩
  · obtain ⟨cause, rfl, hunmade⟩ := Attempt.of_does_of_error hfailed
    obtain ⟨rfl, -, hu⟩ := hunmade.of_request
    exact .inl ⟨cause, rfl, hu, .inl rfl⟩
  · obtain ⟨rfl, -, rfl⟩ := (Attempt.of_does_of_ok hmade).of_request
    obtain ⟨answer, hanswer, hfresh⟩ := Attempt.of_does_of h₁
    obtain ⟨rfl, hreply, hu⟩ := hfresh.of_request
    rw [serve, serve] at hreply hu
    cases hfreshTree : (t.makeDirectories root).2.makeFresh root with
    | error e =>
      rw [hfreshTree] at hreply hu
      subst hreply
      exact .inl ⟨e, hanswer, hu, .inr rfl⟩
    | ok made =>
      obtain ⟨workspace, v⟩ := made
      rw [hfreshTree] at hreply hu
      subst hreply
      exact .inr ⟨workspace, hanswer, by rw [hu], rfl⟩

/-! ## Life cycles -/

/-- A place where a directory is made for the directory that runs stand in, because nothing is
there. -/
def Plan.MakesRoot (plan : Plan) (t : FileTree) (l : Location) : Prop :=
  t.entryAt? l = none ∧ ∃ p ∈ plan.workspaceRoot :: Path.above plan.workspaceRoot,
    (t.makeDirectories plan.workspaceRoot).2.locate .target p = .ok l

/-- The work of a run inside a directory of its own. -/
structure Session where
  files : List Candidate
  /-- What is asked before the sources are found. -/
  looks : List Request
  /-- The path of the directory, and where it leads. -/
  workspace : String
  place : Location
  /-- The tree when the directory has been made. -/
  opened : FileTree
  /-- What is asked by the batch, and what comes of it. -/
  batch : List Request
  outcome : Outcome
  /-- The tree when the batch is over. -/
  worked : FileTree
  /-- What is asked to remove the directory, and why it stays if it does. -/
  removal : List Request
  cleanup : Option CleanupError

namespace Session

/-- The output is registered if all sources compile. -/
def registered (s : Session) (plan : Plan) : List Request :=
  match s.outcome with
  | .success _ => [.register plan.output]
  | .failure .. => []

/-- All that is asked. -/
def requests (s : Session) (plan : Plan) : List Request :=
  s.looks ++ [.watch plan.source] ++
    [.makeDirectories plan.workspaceRoot, .makeFresh plan.workspaceRoot] ++
    s.batch ++ s.removal ++ s.registered plan

/-- The result is that of the batch, whatever comes of the removal. -/
def result (s : Session) : Except BuildError Report :=
  match s.outcome with
  | .success compiled => .ok { discovered := s.files.length, compiled, cleanup := s.cleanup }
  | .failure _ failure => .error (.ofFailure failure)

/-- A session takes one tree to another. -/
structure Describes (s : Session) (plan : Plan) (t t' : FileTree) : Prop where
  looking : ∀ r ∈ s.looks, IsLook r
  present : t.isDirectory plan.source = true
  discovered : ∃ found,
    (discover plan.source plan.selection).outcome.Does serve t found (.ok s.files) t
  /-- The directory is made in the workspace root, after this has been made. -/
  opening : (t.makeDirectories plan.workspaceRoot).2.makeFresh plan.workspaceRoot
    = .ok (s.workspace, s.opened)
  below : ∃ d n, s.workspace = Path.join plan.workspaceRoot (freshName n) ∧
    s.place = d ++ [freshName n] ∧ ∃ way, (t.makeDirectories plan.workspaceRoot).2.Leads .target
      maxLinks [] (walked plan.workspaceRoot) way d
  leads : ∃ way, s.opened.IsWorkspace s.workspace s.place way
  /-- The directory is fresh. -/
  vacant : ∀ l, s.place <+: l → t.entryAt? l = none
  compiling : (compile plan.steps s.workspace plan.output s.files).Does serve s.opened s.batch
    s.outcome s.worked
  removing : (Build.cleanup s.workspace).Does serve s.worked s.removal s.cleanup t'
  /-- Nothing is told to the build system meanwhile. -/
  silent : ∀ r ∈ s.batch ++ s.removal, ¬ IsHostCall r
  /-- The directory itself is removed once, unless something in it stays. -/
  once : s.removal.countP (Removes s.workspace) ≤ 1 ∧
    (s.cleanup = none → s.removal.countP (Removes s.workspace) = 1)
  gone : s.cleanup = none → t'.IsGone s.workspace
  /-- Everything else is kept. -/
  keeps : ∀ area, plan.IsConfined area t →
    (∀ l, ¬ area l → ¬ s.place <+: l → ¬ plan.MakesRoot t l → t'.entryAt? l = t.entryAt? l) ∧
      (s.cleanup = none → ∀ l, s.place <+: l → t'.entryAt? l = none)

/-- The build system is told about the sources, about the output if all of them compile, and
about nothing else. -/
theorem Describes.filter_isHostCall {s : Session} {t' : FileTree} (h : s.Describes plan t t') :
    (s.requests plan).filter (fun r => IsHostCall r) = .watch plan.source :: s.registered plan := by
  have hnone {requests : List Request} (hrequests : ∀ r ∈ requests, ¬ IsHostCall r) :
      requests.filter (fun r => IsHostCall r) = [] :=
    List.filter_eq_nil_iff.mpr fun r hr => by simpa using hrequests r hr
  have hregistered : (s.registered plan).filter (fun r => IsHostCall r) = s.registered plan := by
    unfold registered
    cases s.outcome <;> rfl
  have hlooks := hnone fun r hr => not_isHostCall_of_isLook (h.looking r hr)
  have hworked := hnone h.silent
  rw [List.filter_append] at hworked
  obtain ⟨hbatch, hremoval⟩ := List.append_eq_nil_iff.mp hworked
  simp only [requests, List.filter_append, hlooks, hbatch, hremoval, hregistered]
  rfl

end Session

/-- The life cycles of a run: what it asks, how it ends and the tree that it leaves. -/
inductive Lifecycle (plan : Plan) (t : FileTree) :
    List Request → Except BuildError Report → FileTree → Prop
  /-- There is no source directory. -/
  | absent {looks : List Request} (looking : ∀ r ∈ looks, IsLook r)
      (missing : t.isDirectory plan.source = false) : Lifecycle plan t looks (.ok {}) t
  /-- The sources cannot be found out. -/
  | lost {looks found : List Request} {e : BuildError} (looking : ∀ r ∈ looks, IsLook r)
      (present : t.isDirectory plan.source = true)
      (discovered : (discover plan.source plan.selection).outcome.Does serve t found (.error e) t)
      (kind : (∃ error, e = .pattern error) ∨ ∃ error, e = .walk error) :
      Lifecycle plan t looks (.error e) t
  /-- No directory can be made for the run. -/
  | homeless {looks found made : List Request} {files : List Candidate} {e : FileTree.Error}
      (looking : ∀ r ∈ looks, IsLook r) (present : t.isDirectory plan.source = true)
      (discovered : (discover plan.source plan.selection).outcome.Does serve t found (.ok files) t)
      (making : made = [.makeDirectories plan.workspaceRoot] ∨
        made = [.makeDirectories plan.workspaceRoot, .makeFresh plan.workspaceRoot])
      (keeps : ∀ l, ¬ plan.MakesRoot t l →
        (t.makeDirectories plan.workspaceRoot).2.entryAt? l = t.entryAt? l) :
      Lifecycle plan t (looks ++ [.watch plan.source] ++ made)
        (.error (.workspace plan.workspaceRoot e)) (t.makeDirectories plan.workspaceRoot).2
  /-- The sources are compiled in a directory of the run. -/
  | worked {s : Session} {t' : FileTree} (describes : s.Describes plan t t') :
      Lifecycle plan t (s.requests plan) s.result t'

theorem makeDirectories_keeps (ht : t.WellFormed) {l : Location} (hl : ¬ plan.MakesRoot t l) :
    (t.makeDirectories plan.workspaceRoot).2.entryAt? l = t.entryAt? l :=
  (makeDirectories_grows ht plan.workspaceRoot).entryAt?_eq hl

theorem hasRelativePath_of_discovered (ht : t.WellFormed) {files : List Candidate}
    (h : (discover plan.source plan.selection).outcome.Does serve t asked (.ok files) u) :
    ∀ file ∈ files, HasRelativePath file := by
  intro file hfile
  obtain ⟨names, l, entry, hsource⟩ := of_does_discover h file hfile
  obtain ⟨hne, hnames, -⟩ := ht.of_mem_below hsource.below
  exact ⟨names, hne, hnames, hsource.relative⟩

/-- Work on the sources that are found, inside a directory of the run, is a session. -/
theorem exists_session (ht : t.WellFormed) (hquiet : plan.IsQuiet) {more : List Request}
    {files : List Candidate} {t₁ t' : FileTree} {outcome : Outcome} {failure : Option CleanupError}
    (found : (findSources plan).outcome.Does serve t asked (.ok (some files)) t₁)
    (inside : (compileInside plan files).outcome.Does serve t₁ more (.ok (outcome, failure)) t') :
    ∃ s : Session, s.Describes plan t t' ∧ s.files = files ∧ s.outcome = outcome ∧
      s.cleanup = failure ∧ asked ++ more = s.looks ++ [.watch plan.source] ++
        [.makeDirectories plan.workspaceRoot, .makeFresh plan.workspaceRoot] ++
          s.batch ++ s.removal := by
  obtain ⟨hsame, ⟨⟩ | ⟨⟩ | @⟨looks, _, _, looking, present, discovered⟩⟩ :=
    of_does_findSources found
  obtain rfl : t = t₁ := hsame.symm
  obtain ⟨_, ⟨⟩, _⟩ | ⟨made, workspace, opened, batch, _, worked, removal, _, rfl, ⟨⟩,
    hmade, compiling, removing⟩ := of_does_withWorkspace inside
  obtain ⟨_, ⟨⟩, _⟩ | ⟨_, ⟨⟩, opening, rfl⟩ := of_does_makeWorkspace hmade
  have hroot := makeDirectories_grows ht plan.workspaceRoot
  have hwf := hroot.changes.wellFormed ht
  obtain ⟨d, n, way, hname, hworkspace, hadds, hvacant, hd⟩ := isWorkspace_of_makeFresh hwf opening
  have hopened := hadds.wellFormed hwf
  have hlinks : opened.HasLinksOf t := fun m target hm =>
    hroot.changes.hasLinksOf m target (hadds.link hm)
  have hworked := (changes_of_does hopened compiling).wellFormed hopened
  refine ⟨⟨files, looks, workspace, d ++ [freshName n], opened, batch, outcome, worked, removal,
    failure⟩, ?_, rfl, rfl, rfl, by simp⟩
  refine {
    looking, present, opening, compiling, removing
    discovered := ⟨_, discovered⟩
    below := ⟨d, n, hname, rfl, hd⟩
    leads := ⟨way, hworkspace⟩
    vacant := fun l hl => ?_
    silent := ?_
    once := countP_of_does_cleanup hworked removing
    gone := fun hnone => ?_
    keeps := fun area hconfined => ?_ }
  · by_contra hne
    exact hroot.ne_none hne (hvacant l hl)
  · intro r hr
    rcases List.mem_append.mp hr with hr | hr
    · exact hquiet.of_does_compile compiling r hr
    · exact not_isHostCall_of_isClearing ((asks_cleanup workspace).of_does removing r hr)
  · obtain rfl : failure = none := hnone
    exact isGone_of_does_cleanup hworked hworkspace.noFinalSlash removing
  · have hworking := working_of_does_compile hopened hlinks hconfined
      (hasRelativePath_of_discovered ht discovered) hname hworkspace compiling
    obtain ⟨hshrinks, hempty⟩ := shrinks_of_does_cleanup hworked hworking.workspace removing
    refine ⟨fun l harea hl hmakes => ?_, hempty⟩
    rw [hshrinks.entryAt?_eq hl, hworking.outside l harea hl,
      hadds.entryAt?_of_ne (by rintro rfl; exact hl List.prefix_rfl),
      makeDirectories_keeps ht hmakes]

/-- Any run goes through one of the life cycles. -/
theorem lifecycle_of_course (ht : t.WellFormed) (hquiet : plan.IsQuiet)
    {result : Except BuildError Report} (h : Course plan serve t asked result u) :
    Lifecycle plan t asked result u := by
  cases h with
  | idle found =>
    obtain ⟨rfl, hsearch⟩ := of_does_findSources found
    cases hsearch with
    | absent looking missing => exact .absent looking missing
  | lost found =>
    have kind := isDiscoveryError_of_findSources found
    obtain ⟨rfl, hsearch⟩ := of_does_findSources found
    cases hsearch with
    | failed looking present discovered => exact .lost looking present discovered kind
  | homeless found inside =>
    obtain ⟨rfl, hsearch⟩ := of_does_findSources found
    cases hsearch with
    | found looking present discovered =>
      obtain ⟨e, ⟨⟩, hmade⟩ | ⟨_, _, _, _, _, _, _, _, _, ⟨⟩, _⟩ := of_does_withWorkspace inside
      obtain ⟨e, ⟨⟩, rfl, hasked⟩ | ⟨_, ⟨⟩, _⟩ := of_does_makeWorkspace hmade
      exact .homeless looking present discovered hasked fun l => makeDirectories_keeps ht
  | stopped found inside =>
    obtain ⟨s, hs, -, houtcome, -, hasked⟩ := exists_session ht hquiet found inside
    have h := Lifecycle.worked hs
    rw [hasked]
    simpa [Session.requests, Session.registered, Session.result, houtcome] using h
  | finished found inside registered =>
    obtain ⟨-, -, rfl⟩ := registered.of_request
    obtain ⟨s, hs, rfl, houtcome, rfl, hasked⟩ := exists_session ht hquiet found inside
    have h := Lifecycle.worked hs
    rw [← List.append_assoc, hasked]
    simpa [Session.requests, Session.registered, Session.result, houtcome] using h

/-! ## Source directories -/

/-- A plan of which each directory has a name of its own. -/
def plainPlan : Plan where
  source := "src"
  output := "out"
  workspaceRoot := "work"

/-- A tree with nothing but two sources.  The names of their protocols differ in a capital. -/
def twinTree : FileTree where
  entries := [(["src"], .directory),
    (["src", "a.schema"], .file "\x7b\"protocol\": \"A\"\x7d".toUTF8 0),
    (["src", "b.schema"], .file "\x7b\"protocol\": \"a\"\x7d".toUTF8 0)]

theorem twinTree_cases {l : Location} {entry : Entry} (h : twinTree.entryAt? l = some entry) :
    l = [] ∨ (l = ["src"] ∧ entry = .directory) ∨
      ((l = ["src", "a.schema"] ∨ l = ["src", "b.schema"]) ∧ ∃ text, entry = .file text 0) := by
  by_cases hl : l = []
  · exact .inl hl
  · have hmem := mem_entries_of_entryAt? hl h
    simp only [twinTree, List.mem_cons, Prod.mk.injEq, List.not_mem_nil, or_false] at hmem
    obtain hsource | ⟨rfl, rfl⟩ | ⟨rfl, rfl⟩ := hmem
    · exact .inr (.inl hsource)
    · exact .inr (.inr ⟨.inl rfl, _, rfl⟩)
    · exact .inr (.inr ⟨.inr rfl, _, rfl⟩)

theorem wellFormed_twinTree : twinTree.WellFormed :=
  wellFormed_of_hasRoom (by decide +kernel)

theorem hasNoLinks_twinTree : twinTree.HasNoLinks := by
  intro m target h
  obtain rfl | ⟨-, h⟩ | ⟨-, _, h⟩ := twinTree_cases h <;> simp at h

end IdlCompiler.Build
