/-
# Tidy batches

In a tidy workspace every entry can be removed by the path that leads to it.  A fresh
directory is tidy, and everything that a batch does keeps it so: what is lowered has short
paths that no link is on, and what is delivered does not lead into the workspace.  So a run
whose paths avoid the directories of runs always removes its own.
-/
import IdlCompiler.Proofs.Clearance
import IdlCompiler.Proofs.Outputs

namespace IdlCompiler

open IdlCompiler.Path (IsPlain IsName walked joinAll)

namespace Path

theorem exists_join_eq_append {name : String} (d : String) (h : IsName name) :
    ∃ behind, join d name = d ++ behind := by
  unfold join
  rw [isAbsolute_of_noSlash h.noSlash, Bool.false_or]
  split
  · rename_i hd
    exact ⟨name, by rw [of_decide_eq_true hd, String.empty_append]⟩
  split
  · exact ⟨name, rfl⟩
  · exact ⟨"/" ++ name, by rw [String.append_assoc]⟩

/-- The path of what is below a directory starts with the path of the directory. -/
theorem exists_joinAll_append_eq (d : String) (names : List String) {more : List String}
    (h : ∀ a ∈ more, IsName a) :
    ∃ behind, joinAll d (names ++ more) = joinAll d names ++ behind := by
  induction more using List.reverseRecOn with
  | nil => exact ⟨"", by rw [List.append_nil, String.append_empty]⟩
  | append_singleton more name ih =>
    obtain ⟨behind, hbehind⟩ := ih fun a ha => h a (List.mem_append_left _ ha)
    obtain ⟨behind', hbehind'⟩ :=
      exists_join_eq_append (joinAll d (names ++ more)) (h name (by simp))
    exact ⟨behind ++ behind', by
      rw [← List.append_assoc, joinAll_append, hbehind', hbehind, String.append_assoc]⟩

end Path

namespace FileTree

variable {t u : FileTree} {place d l : Location} {path root last : String} {way : List Location}
  {names : List String}

namespace IsTidy

theorem of_grows_outside (h : t.IsTidy path place way)
    (hgrows : Grows (fun l => ¬ place <+: l) t u) : u.IsTidy path place way where
  workspace := h.workspace.of_grows hgrows
  storable names hentry := by
    have hsame := hgrows.entryAt?_eq (m := place ++ names) (not_not_intro (List.prefix_append ..))
    exact h.storable names (hsame ▸ hentry)

theorem path_ne_empty (h : t.IsTidy path place way) : path ≠ "" :=
  (checkPath_eq_ok_iff.mp (h.storable [] (by simp [h.workspace.directory])).1).1

/-- Directories that are made in a tidy workspace keep it tidy. -/
theorem makeDirectories (ht : t.WellFormed) (h : t.IsTidy path place way)
    (hnames : ∀ a ∈ names, IsName a) :
    (t.makeDirectories (joinAll path names)).2.IsTidy path place way := by
  have hgrows := makeDirectories_grows ht (joinAll path names)
  refine ⟨h.workspace.of_grows hgrows, fun more hmore => ?_⟩
  by_cases hold : t.entryAt? (place ++ more) = none
  · cases hcheck : checkPath (joinAll path names) with
    | error e =>
      have hne := Path.joinAll_ne_empty_of_ne_empty h.path_ne_empty hnames
      rw [makeDirectories_of_checkPath hne hcheck] at hmore
      exact absurd hold hmore
    | ok =>
      obtain ⟨u, hu, hpaves⟩ := (h.workspace.leadsOn hnames).makeDirectories_eq ht fun _ => hcheck
      rw [hu] at hmore
      by_contra hfails
      refine hmore ((hpaves.kept _ fun start hstart hclear _ heq => hfails ?_).trans hold)
      obtain rfl := List.append_cancel_left heq
      obtain ⟨rest, rfl⟩ := hstart
      obtain ⟨behind, hbehind⟩ := Path.exists_joinAll_append_eq path more
        fun a ha => hnames a (List.mem_append_right _ ha)
      have hne := Path.joinAll_ne_empty_of_ne_empty h.path_ne_empty
        fun a ha => hnames a (List.mem_append_left _ ha)
      exact ⟨checkPath_of_append (hbehind ▸ hcheck) hne, short_of_obstacle? hclear⟩
  · exact h.storable more hold

/-- A file that is written in a tidy workspace keeps it tidy. -/
theorem writeFile (ht : t.WellFormed) (h : t.IsTidy path place way) {init : List String}
    (hnames : ∀ a ∈ init ++ [last], IsName a) {content : ByteArray}
    (hwrite : t.writeFile (joinAll path (init ++ [last])) content = .ok u) :
    u.IsTidy path place way := by
  have hsteps := Path.steps_joinAll (d := path) (by simp) hnames
  have hadds := h.workspace.writeFile_adds ht (by simp) (fun a ha => (hnames a ha).plain) hsteps
    hwrite
  refine ⟨h.workspace.of_grows (.single ⟨_, trivial, hadds⟩ : Grows (fun _ => True) t u), ?_⟩
  intro more hmore
  by_cases hold : place ++ more = place ++ (init ++ [last])
  · obtain rfl := List.append_cancel_left hold
    obtain ⟨l, hl, -⟩ := writeFile_adds ht hwrite
    obtain ⟨hcheck, way', hway⟩ := locate_eq_ok_iff.mp hl
    rw [hsteps] at hway
    exact ⟨hcheck, fun a ha => hway.short a (List.mem_append_right _ ha) (hnames a ha).plain⟩
  · exact h.storable more (hadds.entryAt?_of_ne hold ▸ hmore)

end IsTidy

end FileTree

section Deliveries

open FileTree

variable {t u : FileTree} {place : Location} {schemaFile output workspace : String}
  {result : Except GenerationError String}

/-- Neither the output directory nor a link has the name of the directory of a run on its way. -/
structure IsSecluded (t : FileTree) (output workspace : String) (place : Location) : Prop where
  exists_name : ∃ root d n, workspace = Path.join root (freshName n) ∧
    place = d ++ [freshName n] ∧ freshName n ∉ walked output ∧
    ∀ m target, t.entryAt? m = some (.link target) → freshName n ∉ Path.steps target

theorem IsSecluded.of_hasLinksOf (h : IsSecluded t output workspace place)
    (hlinks : u.HasLinksOf t) : IsSecluded u output workspace place := by
  obtain ⟨root, d, n, hworkspace, hplace, houtput, havoid⟩ := h.exists_name
  exact ⟨root, d, n, hworkspace, hplace, houtput,
    fun m target hm => havoid m target (hlinks m target hm)⟩

/-- What may be delivered does not lead into the directory of a run. -/
theorem IsSecluded.not_isPrefix {parts : List String} {path : String} {purpose : Purpose}
    {l : Location} (h : IsSecluded t output workspace place)
    (hparts : ∀ a ∈ parts, IsPartName a) (hpath : walked path <+: walked output ++ parts)
    (hl : t.locate purpose path = .ok l) : ¬ place <+: l := by
  obtain ⟨_, d, n, -, rfl, houtput, hlinks⟩ := h.exists_name
  obtain ⟨-, way, hway⟩ := locate_eq_ok_iff.mp hl
  refine (hway.not_below (by simp) ?_ hlinks).1
  rw [Path.steps_eq, List.mem_append, not_or]
  refine ⟨fun hmem => ?_, ?_⟩
  · rcases List.mem_append.mp (hpath.subset hmem) with hmem | hmem
    · exact houtput hmem
    · exact (hparts _ hmem).2 (Build.hyphen_mem_freshName n)
  · split
    · simpa using (isName_freshName n).plain.1
    · simp

/-- **A delivery makes nothing in the directory of a run** if its path avoids it. -/
theorem Delivers.grows_outside (ht : t.WellFormed) (hplace : IsSecluded t output workspace place)
    (h : Delivers schemaFile output t result u) : Grows (fun l => ¬ place <+: l) t u := by
  have hdirectories {text code : String} {parts : List String}
      (made : deliverable text = .ok (parts, code)) :
      Grows (fun l => ¬ place <+: l) t
        (t.makeDirectories (Path.parent (joinAll output parts))).2 := by
    obtain ⟨directories, file, rfl, hnames⟩ := isPartName_of_deliverable made
    have hgrows := makeDirectories_grows ht (Path.parent (joinAll output (directories ++ [file])))
    refine hgrows.mono fun l ⟨_, p, hp, hl⟩ => ?_
    exact (hplace.of_hasLinksOf hgrows.changes.hasLinksOf).not_isPrefix hnames
      (walked_isPrefix_of_mem_parent (fun a ha => (hnames a ha).1) hp) hl
  cases h with
  | refused => exact .refl
  | stuck _ made => exact hdirectories made
  | kept _ made => exact hdirectories made
  | written _ made writes =>
    have hmade := hdirectories made
    obtain ⟨l, hl, hadds, -⟩ := writeFile_adds (hmade.changes.wellFormed ht) writes
    obtain ⟨directories, file, rfl, hnames⟩ := isPartName_of_deliverable made
    refine hmade.tail ⟨l, ?_, hadds⟩
    exact (hplace.of_hasLinksOf hmade.changes.hasLinksOf).not_isPrefix hnames
      (by rw [Path.walked_joinAll fun a ha => (hnames a ha).1]) hl

end Deliveries

namespace Build

open FileTree

variable {t t' u v : FileTree} {place : Location} {workspace output root : String}
  {way : List Location} {asked : List Request} {plan : Plan}

/-! ## Tidy batches -/

/-- A tree in the course of a batch, with a tidy workspace and no links but those of `t`. -/
structure Tended (t : FileTree) (workspace : String) (place : Location) (way : List Location)
    (u : FileTree) : Prop where
  wellFormed : u.WellFormed
  links : u.HasLinksOf t
  tidy : u.IsTidy workspace place way

/-- A call of a batch keeps its workspace tidy. -/
theorem Tended.of_does_perform (hplace : IsSecluded t output workspace place)
    {file : Candidate} (hfile : HasRelativePath file) {c : Call}
    (hcall : IsCallFor workspace output file c) (h : Tended t workspace place way u)
    {answer : Except FailureCause c.Value}
    (hdoes : (c.perform .standard).outcome.Does serve u asked answer v) :
    Tended t workspace place way v := by
  have hchanges := changes_of_does h.wellFormed hdoes
  refine ⟨hchanges.wellFormed h.wellFormed,
    fun m target hm => h.links m target (hchanges.hasLinksOf m target hm), ?_⟩
  obtain ⟨names, hne, hnames, hrelative⟩ := hfile
  obtain ⟨below, last, hbelow, hlowered⟩ := exists_loweredFile_eq hne hnames
  have htarget := hlowered workspace file hrelative
  cases hcall with
  | read =>
    obtain ⟨_, -, hdoes⟩ := Attempt.of_does_of hdoes
    rw [hdoes.of_request.2.2]
    exact h.tidy
  | lower text =>
    obtain ⟨-, -, rfl⟩ := Attempt.of_does_ofResult hdoes
    exact h.tidy
  | makeDirectories =>
    obtain ⟨_, -, hdoes⟩ := Attempt.of_does_of hdoes
    have hparent : Path.parent (loweredFile workspace file) = joinAll workspace below := by
      obtain ⟨root, _, n, rfl, -⟩ := hplace.exists_name
      rw [htarget]
      exact Path.parent_joinAll root (isName_freshName n)
        (fun a ha => hbelow a (List.mem_append_left _ ha)) (hbelow last (by simp))
    rw [hdoes.of_request.2.2, hparent]
    exact h.tidy.makeDirectories h.wellFormed fun a ha => hbelow a (List.mem_append_left _ ha)
  | write text =>
    obtain ⟨_, -, hdoes⟩ := Attempt.of_does_of hdoes
    rcases writeText_cases hdoes with ⟨-, hwrite⟩ | ⟨_, -, -, rfl⟩
    · exact h.tidy.writeFile h.wellFormed hbelow (htarget ▸ hwrite)
    · exact h.tidy
  | generate schemaFile =>
    obtain ⟨_, -, hdoes⟩ := Attempt.of_does_adapt hdoes
    obtain ⟨_, hdelivers, -⟩ := exists_delivers hdoes
    exact h.tidy.of_grows_outside
      (hdelivers.grows_outside h.wellFormed (hplace.of_hasLinksOf h.links))

/-- A fresh directory is tidy. -/
theorem isTidy_of_makeFresh (ht : t.WellFormed) (h : t.makeFresh root = .ok (workspace, u))
    (hworkspace : u.IsWorkspace workspace place way) : u.IsTidy workspace place way := by
  obtain ⟨d, n, _, rfl, hfresh, hadds, hvacant, -⟩ := isWorkspace_of_makeFresh ht h
  obtain ⟨rfl, -⟩ := hworkspace.leads.unique hfresh.leads
  obtain ⟨_, _, hmade⟩ := makeFresh_eq_ok_iff.mp h
  refine ⟨hworkspace, fun names hentry => ?_⟩
  by_cases hnames : names = []
  · subst hnames
    exact ⟨hmade.check, by simp⟩
  · rw [hadds.entryAt?_of_ne (by simpa using hnames),
      hvacant _ (List.prefix_append _ names)] at hentry
    simp at hentry

end Build

end IdlCompiler
