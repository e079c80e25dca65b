/-
# Runs that are repeated

A run in which everything compiles has the same result again on the tree that it leaves.  The
next run finds the same sources, makes a directory of the same name, and every call of its batch
is in step with the call of the first run.  It leaves what was there, and it writes code only
where two sources have different code at one place.

Main statements: `run_again`, and `run_linkedTree_writes_again`, a run that writes code again
although the paths of the code differ.
-/
import IdlCompiler.Proofs.Recompilation

namespace IdlCompiler

open IdlCompiler.Path (IsName walked joinAll)

namespace FileTree

variable {t u v : FileTree} {d l : Location} {root path : String} {n : Nat}

/-! ## Trees with the same entries -/

theorem WellFormed.of_entryAt?_eq (ht : t.WellFormed) (h : ∀ m, u.entryAt? m = t.entryAt? m) :
    u.WellFormed where
  parent l name entry hentry := by
    rw [h] at hentry ⊢
    exact ht.parent l name entry hentry
  isName l name entry hentry := ht.isName l name entry (h _ ▸ hentry)

/-! ## Fresh directories again -/

namespace IsFresh

/-- A fresh directory is made in a directory. -/
theorem leads_root (ht : t.WellFormed) (h : t.IsFresh root path d n u) :
    (∃ way, t.Leads .target maxLinks [] (Path.steps root) way d) ∧
      t.entryAt? d = some .directory := by
  obtain ⟨way, hway⟩ := exists_leads_of_followWithin h.leads
  obtain ⟨hleads, hd⟩ := ht.directory_of_leads hway (entryAt?_nil t)
  exact ⟨⟨way, hleads⟩, hd⟩

/-- The directory is made again in a later tree if nothing has its name any more. -/
theorem again (ht : t.WellFormed) (h : t.IsFresh root path d n u) (hlasts : t.Lasts v)
    (hvacant : v.entryAt? (d ++ [freshName n]) = none) :
    v.IsFresh root path d n (v.put (d ++ [freshName n]) .directory) where
  leads := by
    obtain ⟨way, hway⟩ := exists_leads_of_followWithin h.leads
    exact (hlasts.leads hway (by simp [(h.leads_root ht).2])).followWithin_eq
  inRange := le_length_entries fun k hk => hlasts.ne_none (h.taken k hk)
  taken k hk := hlasts.ne_none (h.taken k hk)
  vacant := hvacant
  path_eq := h.path_eq
  check := h.check
  short := h.short
  eq_put := rfl

/-- A fresh directory is a tidy workspace. -/
theorem exists_isTidy (ht : t.WellFormed) (h : t.IsFresh root path d n u) :
    t.Adds (d ++ [freshName n]) u ∧ ∃ way, u.IsTidy path (d ++ [freshName n]) way := by
  have hfresh := makeFresh_eq_ok_iff.mpr ⟨d, n, h⟩
  obtain ⟨d', n', way, hpath, hworkspace, hadds, -, _, hd'⟩ := isWorkspace_of_makeFresh ht hfresh
  have hwalked (k : Nat) :
      walked (Path.join root (freshName k)) = walked root ++ [freshName k] := by
    rw [Path.walked_join (Path.isAbsolute_of_noSlash (isName_freshName k).noSlash),
      Path.walked_of_isName (isName_freshName k)]
  have hname : [freshName n'] = [freshName n] :=
    List.append_cancel_left ((hwalked n').symm.trans
      ((congrArg walked (hpath.symm.trans h.path_eq)).trans (hwalked n)))
  obtain ⟨⟨_, hd⟩, -⟩ := h.leads_root ht
  obtain rfl : d' = d := hd'.unique (ht.leads_walked hd)
  rw [hname] at hworkspace hadds
  exact ⟨hadds, way, Build.isTidy_of_makeFresh ht hfresh hworkspace⟩

end IsFresh

end FileTree

namespace Build

open FileTree

variable {t t' u v w again : FileTree} {place l : Location} {workspace output text : String}
  {asked : List Request} {plan : Plan} {made : List Made} {s : Session}

/-! ## What a run leaves -/

/-- The directory of a session is fresh. -/
theorem Session.Describes.exists_isFresh (ht : t.WellFormed) (h : s.Describes plan t t') :
    ∃ d n, s.place = d ++ [freshName n] ∧
      (t.makeDirectories plan.workspaceRoot).2.IsFresh plan.workspaceRoot s.workspace d n
        s.opened := by
  have hroot := (makeDirectories_changes ht plan.workspaceRoot).wellFormed ht
  obtain ⟨d, n, hfresh⟩ := makeFresh_eq_ok_iff.mp h.opening
  obtain ⟨-, _, htidy⟩ := hfresh.exists_isTidy hroot
  obtain ⟨_, hworkspace⟩ := h.leads
  exact ⟨d, n, hworkspace.leads.unique htidy.workspace.leads, hfresh⟩

/-- What is there when the directory of a run is opened is there when the run is over. -/
theorem Session.Describes.lasts (ht : t.WellFormed) (h : s.Describes plan t t')
    (hgrows : Grows (fun _ => True) s.opened s.worked) :
    (t.makeDirectories plan.workspaceRoot).2.Lasts t' := by
  have hroot := (makeDirectories_changes ht plan.workspaceRoot).wellFormed ht
  obtain ⟨d, n, hplace, hfresh⟩ := h.exists_isFresh ht
  obtain ⟨hadds, -⟩ := hfresh.exists_isTidy hroot
  have hworked : (t.makeDirectories plan.workspaceRoot).2.Lasts s.worked :=
    (Lasts.of_grows (.single ⟨_, trivial, hadds⟩ : Grows (fun _ => True) _ _)).trans
      (.of_grows hgrows)
  have hshrinks := h.shrinks ht hgrows
  have hkept (m : Location) (hm : (t.makeDirectories plan.workspaceRoot).2.entryAt? m ≠ none) :
      t'.entryAt? m = s.worked.entryAt? m := by
    refine hshrinks.entryAt?_eq fun ⟨names, hbelow⟩ => hm ?_
    rw [← hbelow, hplace]
    exact hroot.entryAt?_append_of_none hfresh.vacant names
  constructor
  · intro m
    refine ⟨fun hm => ?_, fun target hm => ?_⟩
    · exact (hkept m (by simp [hm])).trans ((hworked.stays m).1 hm)
    · exact (hkept m (by simp [hm])).trans ((hworked.stays m).2 target hm)
  · rintro m ⟨content, modified, hm⟩
    obtain ⟨content', modified', hm'⟩ := hworked.isFileAt m ⟨content, modified, hm⟩
    exact ⟨content', modified', (hkept m (by simp [hm])).trans hm'⟩

theorem Session.Describes.lasts_start (ht : t.WellFormed) (h : s.Describes plan t t')
    (hgrows : Grows (fun _ => True) s.opened s.worked) : t.Lasts t' :=
  (Lasts.of_grows (makeDirectories_grows ht plan.workspaceRoot)).trans (h.lasts ht hgrows)

theorem Holds.hasText_iff {m : Made} (h : Holds plan t t' made) (hm : m ∈ made) :
    t'.HasText m.place text ↔ t'.readText m.product.path = .ok text := by
  rw [readText_eq_ok_iff]
  constructor
  · exact fun htext => ⟨m.place, h.leads m hm, htext⟩
  · rintro ⟨l, hl, htext⟩
    obtain rfl := Except.ok.inj ((h.leads m hm).symm.trans hl)
    exact htext

/-- A run without an error has no source directory, or a session in which everything compiles. -/
theorem Lifecycle.ok_cases {report : Report} (h : Lifecycle plan t asked (.ok report) t') :
    (t.isDirectory plan.source = false ∧ report = {} ∧ t' = t) ∨
      ∃ (s : Session) (compiled : List CompiledFile), s.Describes plan t t' ∧
        s.outcome = .success compiled ∧ report = ⟨s.files.length, compiled, s.cleanup⟩ := by
  generalize hresult : Except.ok report = result at h
  cases h with
  | absent _ missing => exact .inl ⟨missing, Except.ok.inj hresult, rfl⟩
  | lost => simp at hresult
  | homeless => simp at hresult
  | @worked s _ describes =>
    rw [Session.result] at hresult
    cases hok : s.outcome with
    | failure => simp [hok] at hresult
    | success compiled =>
      rw [hok] at hresult
      exact .inr ⟨s, compiled, describes, hok, Except.ok.inj hresult⟩

/-- A run without an error keeps directories, links and places of files. -/
theorem Lifecycle.lasts {report : Report} (ht : t.WellFormed) (hsteps : plan.steps = .standard)
    (h : Lifecycle plan t asked (.ok report) t') : t.Lasts t' := by
  obtain ⟨-, -, rfl⟩ | ⟨s, _, describes, hok, -⟩ := h.ok_cases
  · exact .of_entryAt?_eq fun _ _ => rfl
  · obtain ⟨_, _, -, -, -, hmade, -⟩ := describes.exists_made ht hsteps hok
    exact describes.lasts_start ht hmade.grows

end Build

end IdlCompiler
