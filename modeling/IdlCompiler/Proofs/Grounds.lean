/-
# Where two runs work

Two runs find their sources below one directory and have their own directories in another one;
each has an output directory of its own.  The paths of these lead down to them from directories
that are there, and the places are apart from one another.

In whatever trees two runs come to, the sources are what they were from the start, and whoever
looks for them is answered as at the start.

Main statements: `Lasts.find_eq`, what lasts of the end of a path; `HasSource.filesBelow_eq` and
`HasSource.find_eq`, the sources; and `Hosts.exists_isWorkspace`, the directory of a run.
-/
import IdlCompiler.Proofs.Sharing

namespace IdlCompiler

open IdlCompiler.Path (IsPlain IsName walked joinAll)

namespace FileTree

variable {t u : FileTree} {d l m : Location} {path : String} {names rest : List String}
  {here : Location} {n : Nat}

/-! ## Places that are apart -/

/-- Neither of two places is at or below the other. -/
def Apart (l m : Location) : Prop := ¬ l <+: m ∧ ¬ m <+: l

theorem Apart.symm (h : Apart l m) : Apart m l := ⟨h.2, h.1⟩

theorem Apart.not_isPrefix {p : Location} (h : Apart l m) (hl : l <+: p) : ¬ m <+: p := fun hm =>
  (List.prefix_or_prefix_of_prefix hl hm).elim h.1 h.2

/-! ## What paths lead to -/

/-- A path leads in a later tree to what it led to, unless this was missing or has changed. -/
theorem Lasts.find_eq (h : t.Lasts u) (hfound : t.find path ≠ .error .notFound)
    (hsame : ∀ l, t.locate .target path = .ok l → u.entryAt? l = t.entryAt? l) :
    u.find path = t.find path := by
  rw [FileTree.find] at hfound
  rw [FileTree.find, FileTree.find]
  cases hl : t.locate .target path with
  | ok l =>
    have hthere : t.entryAt? l ≠ none := fun hnone =>
      hfound (by simp [hl, hnone, bind, Except.bind])
    rw [h.locate_eq hl hthere]
    simp only [bind, Except.bind, hsame l hl]
  | error e =>
    have he : e ≠ .notFound := by
      rintro rfl
      simp [hl, bind, Except.bind] at hfound
    have hlater : u.locate .target path = .error e := by
      rw [locate] at hl ⊢
      cases hcheck : checkPath path with
      | error e' => simpa only [hcheck, bind, Except.bind] using hl
      | ok =>
        simp only [hcheck, bind, Except.bind, resolve] at hl ⊢
        exact h.followWithin_eq_error he hl
    simp only [hlater, bind, Except.bind]

/-- The path of a directory goes on to the files and directories below it, or fails because it is
too long or one of its names is. -/
theorem WellFormed.find_joinAll_ne_notFound (ht : t.WellFormed) {root : String}
    (hroot : t.locate .target root = .ok l) (hl : t.entryAt? l = some .directory) (hne : names ≠ [])
    (hend : t.IsFileAt (l ++ names) ∨ t.entryAt? (l ++ names) = some .directory) :
    t.find (joinAll root names) ≠ .error .notFound ∧
      ∀ m, t.locate .target (joinAll root names) = .ok m → m = l ++ names := by
  obtain ⟨entry, hentry⟩ : ∃ entry, t.entryAt? (l ++ names) = some entry := by
    obtain ⟨_, _, hend⟩ | hend := hend <;> exact ⟨_, hend⟩
  have hnames : ∀ a ∈ names, IsName a :=
    fun a ha => ht.isName_of_mem hentry a (List.mem_append_right _ ha)
  have hleads := ht.locate_joinAll_eq hroot hl hne hnames (ht.isReached_of_entryAt? hentry) hend
  rw [FileTree.find, hleads]
  cases hcheck : checkPath (joinAll root names) with
  | error e =>
    have hmissing : e ≠ .notFound := by
      rintro rfl
      exact Path.joinAll_ne_empty hne hnames (checkPath_eq_notFound_iff.mp hcheck)
    simp [bind, Except.bind, hmissing]
  | ok =>
    by_cases hshort : ∀ a ∈ names, a.utf8ByteSize ≤ maxNameSize
    · simp [bind, Except.bind, if_pos hshort, hentry]
    · simp [bind, Except.bind, if_neg hshort]

/-- Where a path leads that leads to a directory. -/
theorem LeadsOn.locate_eq_of_isDirectory (ht : t.WellFormed) (h : t.LeadsOn path d names)
    (hpath : t.isDirectory path) :
    t.locate .target path = .ok (d ++ names) ∧ t.entryAt? (d ++ names) = some .directory := by
  obtain ⟨l, hl, hentry⟩ := FileTree.isDirectory_iff.mp hpath
  obtain ⟨-, way, hway⟩ := locate_eq_ok_iff.mp hl
  obtain ⟨m, hm⟩ := (ht.leads_walked hway).followWithin_append hentry
  obtain ⟨before, m', hwalked, hm'⟩ := h.exists_follow
  have hfollow := hm .target [""] (by simp) (by simp)
  rw [followWithin_empty, hwalked, List.append_assoc, hm' .target _ (by simp) (by simp)] at hfollow
  have hcases := h.down.walked ht m'
  rw [hfollow] at hcases
  cases hcases with
  | through => exact ⟨hl, hentry⟩

/-! ## Ways that go on -/

/-- A way to a directory goes on with a way from there that needs no links. -/
theorem Leads.append {purpose : Purpose} {way way' : List Location}
    (h : t.Leads .target n here names way l) (hl : t.entryAt? l = some .directory)
    (hne : rest ≠ []) (hallowed : purpose = .making → rest ≠ [""])
    (hon : ∀ k, t.Leads purpose k l rest way' m) :
    t.Leads purpose n here (names ++ rest) (way ++ way') m := by
  induction h with
  | stay => exact hon _
  | idle hidle _ ih => exact .idle hidle (ih hl hon)
  | up _ ih => exact .up (ih hl hon)
  | last _ _ ends => simp [Ends, hl] at ends
  | @down _ _ _ _ names _ plain short _ directory _ ih =>
    have hnames : ¬ (purpose = .making ∧ names ++ rest = [""]) := by
      cases names <;> simp_all
    exact .down plain short hnames directory (ih hl hon)
  | @link _ _ _ _ _ names _ plain short _ present _ _ ih =>
    have hnames : ¬ (purpose = .making ∧ names ++ rest = [""]) := by
      cases names <;> simp_all
    exact .link plain short hnames present (by simp [hne]) (by simpa using ih hl hon)

/-- A way down through directories. -/
theorem exists_leads_of_directories {purpose : Purpose} (hpurpose : purpose ≠ .making)
    (hplain : ∀ a ∈ names, IsPlain a) (hshort : ∀ a ∈ names, a.utf8ByteSize ≤ maxNameSize)
    (hdown : ∀ start, start <+: names → t.entryAt? (l ++ start) = some .directory) : ∃ way,
      (∀ k, t.Leads purpose k l names way (l ++ names)) ∧ ∀ m ∈ way, m <+: l ++ names := by
  induction names generalizing l with
  | nil => exact ⟨[], fun k => by rw [List.append_nil]; exact .stay, by simp⟩
  | cons name rest ih =>
    obtain ⟨plain, hplain⟩ := List.forall_mem_cons.mp hplain
    obtain ⟨short, hshort⟩ := List.forall_mem_cons.mp hshort
    have hend : l ++ name :: rest = l ++ [name] ++ rest := List.append_cons ..
    obtain ⟨way, hway, hmem⟩ := ih (l := l ++ [name]) hplain hshort fun start hstart => by
      rw [← List.append_cons]
      exact hdown _ (List.cons_prefix_cons.mpr ⟨rfl, hstart⟩)
    have hfirst := hdown [name] (List.cons_prefix_cons.mpr ⟨rfl, List.nil_prefix⟩)
    rw [hend]
    exact ⟨_, fun k => .down plain short (by simp [hpurpose]) hfirst (hway k),
      List.forall_mem_cons.mpr ⟨List.prefix_append .., hmem⟩⟩

/-! ## Listings -/

/-- Listings of two places where the same stands tell the same. -/
theorem map_below_eq {β : Type} (ht : t.WellFormed) (hu : u.WellFormed) (f : Entry → β)
    (h : ∀ names ≠ [], (t.entryAt? (l ++ names)).map f = (u.entryAt? (m ++ names)).map f) :
    (t.below l).map (fun e => (e.1, f e.2)) = (u.below m).map fun e => (e.1, f e.2) := by
  have hmem {v : FileTree} (hv : v.WellFormed) (p : Location) (e : List String × β) :
      e ∈ (v.below p).map (fun e => (e.1, f e.2)) ↔
        e.1 ≠ [] ∧ (v.entryAt? (p ++ e.1)).map f = some e.2 := by
    simp only [List.mem_map, Prod.exists, mem_below_iff, Option.map_eq_some_iff]
    constructor
    · rintro ⟨names, entry, ⟨hne, hentry, -⟩, rfl⟩
      exact ⟨hne, entry, hentry, rfl⟩
    · rintro ⟨hne, entry, hentry, hvalue⟩
      exact ⟨e.1, entry, ⟨hne, hentry, hv.isReached_of_entryAt? hentry⟩, by rw [hvalue]⟩
  have hsorted (v : FileTree) (p : Location) :
      ((v.below p).map fun e => (e.1, f e.2)).Pairwise fun a b => namesLe a.1 b.1 :=
    List.pairwise_map.mpr (v.pairwise_below p)
  have hnodup (v : FileTree) (p : Location) : ((v.below p).map fun e => (e.1, f e.2)).Nodup := by
    refine List.Nodup.of_map Prod.fst ?_
    rw [List.map_map]
    exact nodup_below v p
  have hperm := (List.perm_ext_iff_of_nodup (hnodup t l) (hnodup u m)).mpr fun e => by
    rw [hmem ht, hmem hu]
    exact and_congr_right fun hne => by rw [h e.1 hne]
  refine hperm.eq_of_pairwise (fun a b ha hb hle hle' => ?_) (hsorted t l) (hsorted u m)
  have hnames : a.1 = b.1 := eq_of_namesLe hle hle'
  obtain ⟨hne, hvalue⟩ := (hmem ht l a).mp ha
  have hvalue' := ((hmem hu m b).mp hb).2
  rw [← hnames, ← h a.1 hne, hvalue] at hvalue'
  exact Prod.ext hnames (Option.some.inj hvalue')

namespace Ground

variable {g : Ground} {source output : String} {place : Location} {k : Nat}

/-! ## The places of two runs -/

/-- The path of the output directory leads down to it.  No link stands in it, and it is in no
numbered directory. -/
structure HasOutput (g : Ground) (output : String) : Prop where
  leads : ∃ d names, g.start.LeadsOn output d names ∧ g.own = d ++ names
  noLinks : ∀ m target, g.own <+: m → g.start.entryAt? m ≠ some (.link target)
  not_inRun : ¬ g.InRun g.own

/-- The path of the source directory leads down to it.  The output directories and the directory
of runs are outside of it, it is outside of the output directories, and it is in no numbered
directory.  Links in it lead out of all places where a run works. -/
structure HasSource (g : Ground) (source : String) (place : Location) : Prop where
  leads : ∃ d names, g.start.LeadsOn source d names ∧ place = d ++ names
  apart_own : Apart place g.own
  apart_other : Apart place g.other
  not_isPrefix_root : ¬ place <+: g.root
  not_inRun : ¬ g.InRun place
  links : ∀ names target, g.start.entryAt? (place ++ names) = some (.link target) →
    ∀ u, g.Settles u → u.find (joinAll source names) = g.start.find (joinAll source names)

theorem HasSource.swap (h : g.HasSource source place) : g.swap.HasSource source place where
  leads := h.leads
  apart_own := h.apart_other
  apart_other := h.apart_own
  not_isPrefix_root := h.not_isPrefix_root
  not_inRun := h.not_inRun
  links names target hlink u hu := h.links names target hlink u hu.swap

/-- What is above a place that is in no numbered directory is in none either. -/
theorem not_inRun_of_isPrefix (h : ¬ g.InRun m) (hl : l <+: m) : ¬ g.InRun l :=
  fun ⟨k, hk⟩ => h ⟨k, hk.trans hl⟩

theorem not_inRun_of_isPrefix_root (hl : l <+: g.root) : ¬ g.InRun l :=
  fun ⟨_, hk⟩ => not_runPlace_isPrefix hl hk

/-- Outside of the places of the runs no files are written. -/
theorem Settles.isFileAt_iff (hu : g.Settles u) (hrun : ¬ g.InRun l) (hown : ¬ g.IsOwn l)
    (hother : ¬ g.IsOther l) : u.IsFileAt l ↔ g.start.IsFileAt l := by
  unfold IsFileAt
  rcases hu.kept l hrun hown hother with heq | ⟨⟨hnone, hdirectory⟩, -⟩
  · rw [heq]
  · simp [hnone, hdirectory]

/-- A path leads down as it did at the start. -/
theorem Settles.leadsOn (hu : g.Settles u) (h : g.start.LeadsOn path d names) :
    u.LeadsOn path d names := h.of_stays hu.lasts.stays hu.links

namespace HasSource

/-- Nothing changes in the source directory. -/
theorem entryAt?_eq (h : g.HasSource source place) (hu : g.Settles u) (hl : place <+: l) :
    u.entryAt? l = g.start.entryAt? l := by
  have hrun : ¬ g.InRun l := by
    rintro ⟨k, hk⟩
    rcases List.prefix_or_prefix_of_prefix hl hk with hplace | hplace
    · rcases List.prefix_concat_iff.mp hplace with rfl | hroot
      · exact h.not_inRun ⟨k, List.prefix_rfl⟩
      · exact h.not_isPrefix_root hroot
    · exact h.not_inRun ⟨k, hplace⟩
  have hown : ¬ g.IsOwn l := fun hown => h.apart_own.not_isPrefix hl hown.below
  have hother : ¬ g.IsOther l := fun hother => h.apart_other.not_isPrefix hl hother.below
  rcases hu.kept l hrun hown hother with heq | ⟨-, hroot | hway | hway⟩
  · exact heq
  · exact absurd (hl.trans hroot) h.not_isPrefix_root
  · exact absurd (hl.trans hway) h.apart_own.1
  · exact absurd (hl.trans hway) h.apart_other.1

theorem isFileAt_iff (h : g.HasSource source place) (hu : g.Settles u) (hl : l <+: place) :
    u.IsFileAt l ↔ g.start.IsFileAt l :=
  hu.isFileAt_iff (not_inRun_of_isPrefix h.not_inRun hl)
    (fun hown => h.apart_own.2 (hown.below.trans hl))
    fun hother => h.apart_other.2 (hother.below.trans hl)

/-- Where the source directory is if it is there. -/
theorem locate_eq (h : g.HasSource source place) (hstart : g.start.WellFormed)
    (hsource : g.start.isDirectory source) :
    g.start.locate .target source = .ok place ∧ g.start.entryAt? place = some .directory := by
  obtain ⟨d, names, hleads, rfl⟩ := h.leads
  exact hleads.locate_eq_of_isDirectory hstart hsource

/-- The paths of the sources lead to what they led to. -/
theorem find_eq (h : g.HasSource source place) (hstart : g.start.WellFormed) (hu : g.Settles u)
    (hsource : g.start.isDirectory source) (hne : names ≠ []) {entry : Entry}
    (hentry : g.start.entryAt? (place ++ names) = some entry) :
    u.find (joinAll source names) = g.start.find (joinAll source names) := by
  obtain ⟨hplace, hdirectory⟩ := h.locate_eq hstart hsource
  have hkept (hend : g.start.IsFileAt (place ++ names) ∨
      g.start.entryAt? (place ++ names) = some .directory) :
      u.find (joinAll source names) = g.start.find (joinAll source names) := by
    obtain ⟨hfound, hleads⟩ := hstart.find_joinAll_ne_notFound hplace hdirectory hne hend
    refine hu.lasts.find_eq hfound fun l hl => ?_
    rw [hleads l hl]
    exact h.entryAt?_eq hu (List.prefix_append ..)
  cases entry with
  | file content modified => exact hkept (.inl ⟨content, modified, hentry⟩)
  | directory => exact hkept (.inr hentry)
  | link target => exact h.links names target hentry u hu

/-- A walk through the source directory answers as at the start. -/
theorem filesBelow_eq (h : g.HasSource source place) (hstart : g.start.WellFormed)
    (hu : g.Settles u) (hsource : g.start.isDirectory source) :
    u.filesBelow source = g.start.filesBelow source := by
  obtain ⟨hplace, hdirectory⟩ := h.locate_eq hstart hsource
  have hplace' := hu.lasts.locate_eq hplace (by simp [hdirectory])
  have hbelow : u.below place = g.start.below place := by
    have hmap := map_below_eq hu.wellFormed hstart id (l := place) (m := place) fun names _ => by
      rw [h.entryAt?_eq hu (List.prefix_append ..)]
    simpa using hmap
  have hwalk (e : List String × Entry) (he : e ∈ g.start.walkBelow source place) :
      u.isWalkedFile (joinAll source e.1) e.2
        = g.start.isWalkedFile (joinAll source e.1) e.2 := by
    obtain ⟨hne, hentry, -⟩ := mem_below_iff.mp (List.mem_filter.mp he).1
    unfold isWalkedFile lookInto isFile
    rw [h.find_eq hstart hu hsource hne hentry]
  rw [FileTree.filesBelow_eq hplace', FileTree.filesBelow_eq hplace, filesAmong, filesAmong,
    walkBelow, walkBelow, hbelow]
  exact congrArg (· >>= _) (filterM_congr hwalk)

/-- A source is read as at the start. -/
theorem readText_eq (h : g.HasSource source place) (hstart : g.start.WellFormed)
    (hu : g.Settles u) (hsource : g.start.isDirectory source) {file : Build.Candidate}
    {entry : Entry} (hfile : Build.IsSource g.start source file names l entry) :
    u.readText file.path = g.start.readText file.path := by
  obtain ⟨hne, hentry, -⟩ := mem_below_iff.mp hfile.below
  obtain rfl := Except.ok.inj ((h.locate_eq hstart hsource).1.symm.trans hfile.leads)
  rw [FileTree.readText, FileTree.readText, hfile.path, h.find_eq hstart hu hsource hne hentry]

end HasSource

/-! ## The directories of the runs -/

/-- The path of a numbered directory. -/
def runPath (g : Ground) (k : Nat) : String := Path.join g.rootPath (freshName k)

/-- Paths in numbered directories are as long as one another. -/
theorem checkPath_runPath (g : Ground) {n m : Nat} (hn : n < 10 ^ 6) (hm : m < 10 ^ 6)
    (hnames : ∀ a ∈ names, IsName a) :
    checkPath (joinAll (g.runPath n) names) = checkPath (joinAll (g.runPath m) names) := by
  obtain ⟨front, behind, hpath⟩ := Path.exists_joinAll_join_eq g.rootPath hnames
  have hname (k : Nat) : freshName k ≠ "" := (isName_freshName k).plain.1
  rw [runPath, runPath, hpath _ (isName_freshName n), hpath _ (isName_freshName m)]
  exact checkPath_congr (by rw [utf8ByteSize_freshName hn, utf8ByteSize_freshName hm]) (hname n)
    (hname m) (nul_notMem_freshName n) (nul_notMem_freshName m)

/-- A numbered directory that was not there from the start is a workspace. -/
theorem Settles.exists_isWorkspace (hu : g.Settles u) (hstart : g.start.WellFormed)
    (hroot : g.start.LeadsOn g.rootPath g.rootStart g.rootNames)
    (hshort : ∀ a ∈ g.rootNames, a.utf8ByteSize ≤ maxNameSize) (hk : k < 10 ^ 6)
    (hvacant : g.start.entryAt? (runPlace g.root k) = none)
    (hdirectory : u.entryAt? (runPlace g.root k) = some .directory) :
    ∃ way, u.IsWorkspace (g.runPath k) (runPlace g.root k) way := by
  obtain ⟨before, way, hwalked, hway⟩ := hroot.leads
  have hname := isName_freshName k
  have hplace : runPlace g.root k = g.rootStart ++ (g.rootNames ++ [freshName k]) :=
    List.append_assoc ..
  have hplain : ∀ a ∈ g.rootNames ++ [freshName k], IsPlain a := by
    intro a ha
    rcases List.mem_append.mp ha with ha | ha
    · exact hroot.down.plain a ha
    · exact List.mem_singleton.mp ha ▸ hname.plain
  have hshort' : ∀ a ∈ g.rootNames ++ [freshName k], a.utf8ByteSize ≤ maxNameSize := by
    intro a ha
    rcases List.mem_append.mp ha with ha | ha
    · exact hshort a ha
    · rw [List.mem_singleton.mp ha, utf8ByteSize_freshName hk]
      decide
  have hentry : Purpose.entry ≠ .making := by simp
  obtain ⟨way', hdown, hmem⟩ :=
    exists_leads_of_directories hentry hplain hshort' fun start hprefix => by
      by_cases hall : start = g.rootNames ++ [freshName k]
      · rw [hall, ← hplace, hdirectory]
      · have habove := (List.prefix_append_right_inj g.rootStart).mpr hprefix
        rw [← hplace] at habove
        exact hu.wellFormed.directory_of_isPrefix habove hdirectory
          fun heq => hall (List.append_cancel_left (heq.trans hplace))
  refine ⟨way ++ way', ?_, ?_, hdirectory, fun m target hm hlink => ?_, fun m hm hbelow => ?_⟩
  · rw [runPath, Path.walked_join (Path.isAbsolute_of_noSlash hname.noSlash),
      Path.walked_of_isName hname, hwalked, List.append_assoc, hplace]
    exact (hway.mono_of_directory hroot.down.directory fun m _ => hu.lasts.stays m).append
      (hu.lasts.stays _ |>.1 hroot.down.directory) (by simp) (by simp) hdown
  · rw [runPath, Path.hasFinalSlash_join hname.plain.1,
      Path.hasFinalSlash_of_noSlash hname.noSlash]
  · obtain ⟨names, rfl⟩ := hm
    have hlink' := hu.links _ target hlink
    simp [hstart.entryAt?_append_of_none hvacant names] at hlink'
  · rcases List.mem_append.mp hm with hm | hm
    · -- What was on the way from the start is not below a place where nothing was.
      obtain ⟨names, rfl⟩ := hbelow
      have hnone := hstart.entryAt?_append_of_none hvacant names
      obtain heq | hthere | ⟨target, hthere⟩ := hway.eq_or_leadsOn_of_mem hm
      · simp [heq, hroot.down.directory] at hnone
      · simp [hthere] at hnone
      · simp [hthere] at hnone
    · exact ((hmem m hm).trans (hplace ▸ List.prefix_rfl)).eq_of_length_le hbelow.length_le

section Opened

variable {n : Nat} {m : Nat}

/-- The directory of a run is tidy on the tree that the run has alone. -/
theorem IsOpened.exists_isTidy (h : g.IsOpened n m t u) (hstart : g.start.WellFormed)
    (hroot : g.start.LeadsOn g.rootPath g.rootStart g.rootNames) (ht : g.Settles t) :
    ∃ way, t.IsTidy (g.runPath n) (runPlace g.root n) way := by
  obtain ⟨way, hway⟩ := ht.exists_isWorkspace hstart hroot h.root_short h.lt h.vacant h.directory
  exact ⟨way, hway, h.storable⟩

/-- The directory of a run is tidy on the tree that the run shares. -/
theorem IsOpened.exists_isTidy_shared (h : g.IsOpened n m t u) (hstart : g.start.WellFormed)
    (hroot : g.start.LeadsOn g.rootPath g.rootStart g.rootNames) (hu : g.Settles u) :
    ∃ way, u.IsTidy (g.runPath m) (runPlace g.root m) way := by
  have hdirectory : u.entryAt? (runPlace g.root m) = some .directory := by
    have hmirrors := (h.mirrors.entryAt?_eq_directory_iff []).mp
    rw [List.append_nil, List.append_nil] at hmirrors
    exact hmirrors h.directory
  obtain ⟨way, hway⟩ := hu.exists_isWorkspace hstart hroot h.root_short h.lt_shared
    h.vacant_shared hdirectory
  refine ⟨way, hway, fun names hentry => ?_⟩
  obtain ⟨entry, hsome⟩ := Option.ne_none_iff_exists'.mp hentry
  have hnames := IsTidy.isNames hu.wellFormed hsome
  rw [Ne, ← contentAt?_eq_none_iff, ← h.mirrors, contentAt?_eq_none_iff] at hentry
  obtain ⟨hcheck, hshort⟩ := h.storable names hentry
  exact ⟨(g.checkPath_runPath h.lt_shared h.lt hnames).trans hcheck, hshort⟩

end Opened

/-! ## Runs -/

/-- A number of a directory that is free from the start. -/
def IsFreeRun (g : Ground) (k : Nat) : Prop :=
  k < 10 ^ 6 ∧ g.start.entryAt? (runPlace g.root k) = none

/-- Two runs work on a ground: they share their sources and the directory of runs, and the output
directory of neither is in that of the other. -/
structure Hosts (g : Ground) (source output output' : String) : Prop where
  wellFormed : g.start.WellFormed
  root : g.start.LeadsOn g.rootPath g.rootStart g.rootNames
  own : g.HasOutput output
  other : g.swap.HasOutput output'
  apart : Apart g.own g.other
  source : ∃ place, g.HasSource source place
  /-- There are directories for both runs. -/
  room : ∃ k k', k ≠ k' ∧ g.IsFreeRun k ∧ g.IsFreeRun k'

theorem Hosts.swap {output' : String} (h : g.Hosts source output output') :
    g.swap.Hosts source output' output where
  wellFormed := h.wellFormed
  root := h.root
  own := h.other
  other := h.own
  apart := h.apart.symm
  source := h.source.imp fun _ => HasSource.swap
  room := h.room

end Ground

end FileTree

end IdlCompiler
