/-
# The directory of a run

A run works below a directory of its own, which was not there before it.  Its path goes on
leading there as long as nothing on the way is taken away, and nothing below it is a link, so
that what the run makes below its path is made below the directory.

Main statements: `isWorkspace_of_makeFresh`, `IsWorkspace.mono`,
`IsWorkspace.makeDirectories_grows` and `IsWorkspace.writeFile_adds`.
-/
import IdlCompiler.Proofs.Changes

namespace IdlCompiler.FileTree

open IdlCompiler.Path (IsPlain IsName walked)

variable {t u v : FileTree} {l m place : Location} {path p : String} {purpose : Purpose}
  {names : List String} {way : List Location} {n : Nat} {here : Location}

/-! ## Ways that end at directories -/

theorem Leads.target_of_entry (h : t.Leads .entry n here names way l)
    (hl : t.entryAt? l = some .directory) : t.Leads .target n here names way l := by
  induction h with
  | stay => exact .stay
  | idle hidle _ ih => exact .idle hidle (ih hl)
  | up _ ih => exact .up (ih hl)
  | last _ _ ends => simp [Ends, hl] at ends
  | down plain short _ directory _ ih => exact .down plain short (by simp) directory (ih hl)
  | link plain short _ present _ _ ih =>
    exact .link plain short (by simp) present (by simp) (ih hl)

/-- A way to a directory is the same in another tree if what it passes stays there. -/
theorem Leads.mono_of_directory (h : t.Leads purpose n here names way l)
    (hl : t.entryAt? l = some .directory) (hway : ∀ m ∈ way, t.Stays u m) :
    u.Leads purpose n here names way l :=
  h.mono hway fun ends => by simp [Ends, hl] at ends

/-- Slashes at the end of a path do not matter to where it leads. -/
theorem WellFormed.leads_walked (ht : t.WellFormed)
    (h : t.Leads .target n [] (Path.steps path) way l) :
    t.Leads .target n [] (walked path) way l := by
  rw [Path.steps_eq] at h
  split at h
  · exact (ht.directory_of_leads h (entryAt?_nil t)).1
  · rwa [List.append_nil] at h

/-! ## Trees with no links -/

/-- A tree has no links. -/
def HasNoLinks (t : FileTree) : Prop := ∀ m target, t.entryAt? m ≠ some (.link target)

theorem HasNoLinks.of_hasLinksOf (h : t.HasNoLinks) (hlinks : u.HasLinksOf t) : u.HasNoLinks :=
  fun m target hm => h m target (hlinks m target hm)

/-- A path leads to a directory with no links in it, and passes nothing below it. -/
structure IsWorkspace (t : FileTree) (path : String) (place : Location) (way : List Location) :
    Prop where
  leads : t.Leads .entry maxLinks [] (walked path) way place
  noFinalSlash : Path.hasFinalSlash path = false
  directory : t.entryAt? place = some .directory
  noLinks : ∀ m target, place <+: m → t.entryAt? m ≠ some (.link target)
  clear : ∀ m ∈ way, place <+: m → m = place

/-- A workspace stays one if its way and the directory itself do. -/
theorem IsWorkspace.mono (h : t.IsWorkspace path place way) (hway : ∀ m ∈ way, t.Stays u m)
    (hplace : t.Stays u place) (hlinks : u.HasLinksOf t) : u.IsWorkspace path place way where
  leads := h.leads.mono_of_directory h.directory hway
  noFinalSlash := h.noFinalSlash
  directory := hplace.1 h.directory
  noLinks := fun m target hm hlink => h.noLinks m target hm (hlinks m target hlink)
  clear := h.clear

theorem IsWorkspace.of_grows {area : Location → Prop} (h : t.IsWorkspace path place way)
    (hgrows : Grows area t u) : u.IsWorkspace path place way :=
  h.mono (fun m _ => hgrows.stays m) (hgrows.stays place) hgrows.changes.hasLinksOf

/-- What is below the path of a workspace is below the workspace. -/
theorem IsWorkspace.eq_append (h : t.IsWorkspace path place way) {way' : List Location}
    (hne : names ≠ []) (hnames : ∀ a ∈ names, IsPlain a)
    (hl : t.Leads purpose maxLinks [] (walked path ++ names) way' l) : l = place ++ names := by
  obtain ⟨m, hm⟩ := (h.leads.target_of_entry h.directory).followWithin_append h.directory
  have hallowed : purpose = .making → names ≠ [""] := by
    rintro - rfl
    exact (hnames "" (by simp)).1 rfl
  have hfollow := (hm purpose names hne hallowed).symm.trans hl.followWithin_eq
  obtain ⟨way'', hrest⟩ := exists_leads_of_followWithin hfollow
  exact hrest.eq_append hnames h.noLinks

/-- An entry itself is in the directory where it is looked for. -/
theorem eq_concat_of_followWithin_entry {name : String} (plain : IsPlain name)
    (h : t.followWithin .entry n here [name] = .ok l) : l = here ++ [name] := by
  obtain ⟨-, -, ⟨-, -, rfl⟩ | ⟨-, h⟩ | ⟨_, -, followed, -⟩⟩ := of_followWithin_plain plain h
  · rfl
  · exact (Except.ok.inj (followWithin_nil.symm.trans h)).symm
  · exact absurd ⟨rfl, rfl⟩ followed

/-- An entry that is looked for in its directory is where its path leads. -/
theorem eq_concat_of_locateParent (ht : t.WellFormed) {above : Location} {name : String}
    (hparent : t.locateParent p = .ok (above, some name)) (plain : IsPlain name)
    (hl : t.Leads .entry maxLinks [] (walked p) way l) : l = above ++ [name] := by
  obtain ⟨-, ⟨way', hway⟩, hname⟩ := locateParent_eq_ok_iff.mp hparent
  obtain ⟨hway, habove⟩ := ht.directory_of_leads hway (entryAt?_nil t)
  obtain ⟨m, hm⟩ := hway.followWithin_append habove
  have hlast : walked p = (walked p).dropLast ++ [name] :=
    (List.dropLast_append_getLast? name hname.symm).symm
  rw [hlast] at hl
  exact eq_concat_of_followWithin_entry plain
    ((hm .entry [name] (by simp) (by simp)).symm.trans hl.followWithin_eq)

/-- What is in the directories below a workspace is looked for there. -/
theorem IsWorkspace.eq_of_locateParent (ht : t.WellFormed) (h : t.IsWorkspace path place way)
    {above : Location} {name : String} (hnames : ∀ a ∈ names, IsPlain a)
    (hwalked : walked p = walked path ++ names)
    (hparent : t.locateParent p = .ok (above, some name)) (plain : IsPlain name) :
    above ++ [name] = place ++ names := by
  rcases List.eq_nil_or_concat' names with rfl | ⟨init, last, rfl⟩
  · rw [List.append_nil] at hwalked ⊢
    exact (eq_concat_of_locateParent ht hparent plain (hwalked ▸ h.leads)).symm
  obtain ⟨-, ⟨way', hway⟩, hname⟩ := locateParent_eq_ok_iff.mp hparent
  obtain ⟨hway, -⟩ := ht.directory_of_leads hway (entryAt?_nil t)
  rw [← List.append_assoc] at hwalked
  rw [hwalked, List.dropLast_concat] at hway
  rw [hwalked, List.getLast?_concat] at hname
  obtain rfl := Option.some.inj hname
  rw [← List.append_assoc]
  congr 1
  rcases List.eq_nil_or_concat' init with rfl | ⟨_, _, rfl⟩
  · rw [List.append_nil] at hway ⊢
    exact hway.unique (h.leads.target_of_entry h.directory)
  · refine h.eq_append (by simp) (fun a ha => hnames a ?_) hway
    exact List.mem_append_left _ ha

/-- Names that lead up to a path or beyond it. -/
theorem isPrefix_append_cases {as bs cs : List String} (h : as <+: bs ++ cs) :
    (∃ behind, bs = as ++ behind) ∨ ∃ names, as = bs ++ names ∧ names ≠ [] ∧ names <+: cs := by
  rcases Nat.le_total as.length bs.length with hle | hle
  · obtain ⟨behind, rfl⟩ := List.prefix_of_prefix_length_le h (List.prefix_append ..) hle
    exact .inl ⟨behind, rfl⟩
  · obtain ⟨names, rfl⟩ := List.prefix_of_prefix_length_le (List.prefix_append ..) h hle
    rcases eq_or_ne names [] with rfl | hne
    · exact .inl ⟨[], by simp⟩
    · exact .inr ⟨names, rfl, hne, (List.prefix_append_right_inj bs).mp h⟩

/-- Directories that are made below the path of a workspace are made below the workspace. -/
theorem IsWorkspace.makeDirectories_grows (ht : t.WellFormed) (h : t.IsWorkspace path place way)
    (hnames : ∀ a ∈ names, IsPlain a) (hwalked : walked p <+: walked path ++ names) :
    Grows (fun l => place <+: l ∧ l ≠ place) t (t.makeDirectories p).2 := by
  have hgrows := FileTree.makeDirectories_grows ht p
  refine hgrows.lift id fun _ _ ⟨l, ⟨vacant, q, hq, hlocate⟩, hadds⟩ => ⟨l, ?_, hadds⟩
  have hu := hgrows.changes.wellFormed ht
  have hworkspace := h.of_grows hgrows
  obtain ⟨-, way', hway⟩ := locate_eq_ok_iff.mp hlocate
  have hway := hu.leads_walked hway
  have hq : walked q <+: walked path ++ names :=
    (Path.walked_isPrefix_of_mem_cons_above hq).trans hwalked
  rcases isPrefix_append_cases hq with ⟨behind, hbehind⟩ | ⟨below, hbelow, hne, hstart⟩
  · -- The directories that lead to the workspace are there already.
    have hleads := h.leads.target_of_entry h.directory
    rw [hbehind] at hleads
    obtain ⟨way'', m, hm, hdirectory⟩ :=
      ht.exists_leads_of_append hleads (fun _ => h.directory) (entryAt?_nil t)
    rw [hway.unique (hm.mono_of_directory hdirectory fun m _ => hgrows.stays m), hdirectory]
      at vacant
    simp at vacant
  · rw [hbelow] at hway
    obtain rfl := hworkspace.eq_append hne (fun a ha => hnames a (hstart.subset ha)) hway
    exact ⟨List.prefix_append .., by simpa using hne⟩

/-- A file that is written below the path of a workspace is written below the workspace. -/
theorem IsWorkspace.writeFile_adds (ht : t.WellFormed) (h : t.IsWorkspace path place way)
    (hne : names ≠ []) (hnames : ∀ a ∈ names, IsPlain a)
    (hsteps : Path.steps p = walked path ++ names) {content : ByteArray}
    (hwrite : t.writeFile p content = .ok u) : t.Adds (place ++ names) u := by
  obtain ⟨l, hl, hadds, -⟩ := FileTree.writeFile_adds ht hwrite
  obtain ⟨-, way', hway⟩ := locate_eq_ok_iff.mp hl
  rw [hsteps] at hway
  obtain rfl := h.eq_append hne hnames hway
  exact hadds

/-- A fresh directory is a workspace, and neither it nor anything below it was there before. -/
theorem isWorkspace_of_makeFresh (ht : t.WellFormed) {parent : String}
    (h : t.makeFresh parent = .ok (path, u)) : ∃ d n way,
      path = Path.join parent (freshName n) ∧ u.IsWorkspace path (d ++ [freshName n]) way ∧
      t.Adds (d ++ [freshName n]) u ∧
      (∀ m, d ++ [freshName n] <+: m → t.entryAt? m = none) ∧
      ∃ way', t.Leads .target maxLinks [] (walked parent) way' d := by
  obtain ⟨d, n, way', hway, rfl, short, vacant, hadds, hdirectory⟩ := makeFresh_adds ht h
  have hname := isName_freshName n
  obtain ⟨hway, hd⟩ := ht.directory_of_leads hway (entryAt?_nil t)
  have hway := ht.leads_walked hway
  have hwalked : walked (Path.join parent (freshName n)) = walked parent ++ [freshName n] := by
    rw [Path.walked_join (Path.isAbsolute_of_noSlash hname.noSlash), Path.walked_of_isName hname]
  have hempty (m : Location) (hm : d ++ [freshName n] <+: m) : t.entryAt? m = none := by
    rw [Option.eq_none_iff_forall_ne_some]
    intro entry hentry
    rw [ht.eq_of_isPrefix (by simp [vacant]) hentry hm, vacant] at hentry
    simp at hentry
  have hnew (m : Location) (entry : Entry) (hm : d ++ [freshName n] <+: m)
      (hentry : u.entryAt? m = some entry) : m = d ++ [freshName n] := by
    by_contra hne
    rw [hadds.entryAt?_of_ne hne, hempty m hm] at hentry
    simp at hentry
  obtain ⟨k, hk⟩ := (hway.mono_of_directory hd fun m _ => hadds.stays m).followWithin_append_cons
    ((hadds.stays d).1 hd) hname.plain short hdirectory
  obtain ⟨way, hleads⟩ := exists_leads_of_followWithin
    ((hk .entry [] (by simp)).trans followWithin_nil)
  refine ⟨d, n, way, rfl, ?_, hadds, hempty, way', hway⟩
  refine ⟨hwalked ▸ hleads, ?_, hdirectory, fun m target hm hlink => ?_, fun m hm hbelow => ?_⟩
  · rw [Path.hasFinalSlash_join hname.plain.1, Path.hasFinalSlash_of_noSlash hname.noSlash]
  · rw [hnew m _ hm hlink, hdirectory] at hlink
    simp at hlink
  · rcases hleads.eq_or_leadsOn_of_mem hm with rfl | hentry | ⟨target, hentry⟩
    · rfl
    · exact hnew m _ hbelow hentry
    · exact hnew m _ hbelow hentry

end IdlCompiler.FileTree
