/-
# Removals that are refused

A tree is removed entry by entry, and the removal of any entry may be refused for reasons that are
not in the tree.  `serveRefusing` answers as a file tree does, apart from refusals at given places,
and a walk comes upon the entries in a given order.  Of this order nothing is known but that what is
in a directory comes before the directory (`IsWalk`); links are entries like others.

Main statements: a removal that succeeds takes away the entry that the walk came upon, wherever
links lead (`Refuses.lacks_of_does_remove`); where the path does not depend on what is removed,
nothing but a refusal keeps an entry (`Refuses.refusal?_of_does_remove`); and the entries before the
first failure are gone, and nothing else is (`removeTree_takes_up_to_failure`).
-/
import IdlCompiler.Proofs.Clearance

namespace IdlCompiler

open IdlCompiler.Path (IsPlain IsName walked joinAll)

namespace FileTree

variable {t u w : FileTree} {l m here : Location} {path p : String} {purpose : Purpose}
  {names start : List String} {way : List Location} {n : Nat} {entry : Entry}
  {area : Location → Prop} {isDirectory : Bool}

/-! ## Ways along entries -/

/-- Names lead to the entry that stands under them, whatever links there are elsewhere. -/
theorem Leads.eq_append_of_entryAt? (ht : t.WellFormed)
    (h : t.Leads purpose n here names way m) (hnames : ∀ a ∈ names, IsPlain a)
    (hentry : t.entryAt? (here ++ names) = some entry)
    (hlink : ∀ target, entry = .link target → purpose = .entry) : m = here ++ names := by
  refine h.eq_append_of_not_followed hnames fun front name rest target heq hpresent => ?_
  have hend : here ++ names = here ++ (front ++ [name]) ++ rest := by simp [heq]
  rw [hend] at hentry
  -- a link with names behind it would stand where a directory does
  obtain rfl : rest = [] := by
    by_contra hne
    have hdirectory :=
      ht.directory_of_isPrefix (List.prefix_append _ _) hentry (by simpa using hne)
    simp [hpresent] at hdirectory
  rw [List.append_nil, hpresent] at hentry
  exact ⟨rfl, hlink target (Option.some.inj hentry).symm⟩

/-- A way leads to the entry that stands under names which are not too long. -/
theorem WellFormed.exists_leads_of_entryAt? (ht : t.WellFormed) (hpurpose : purpose ≠ .making)
    (hnames : ∀ a ∈ names, IsPlain a) (hshort : ∀ a ∈ names, a.utf8ByteSize ≤ maxNameSize)
    (hentry : t.entryAt? (here ++ names) = some entry)
    (hlink : ∀ target, entry = .link target → purpose = .entry) :
    ∃ way, t.Leads purpose n here names way (here ++ names) := by
  induction names generalizing here with
  | nil => exact ⟨[], by rw [List.append_nil]; exact .stay⟩
  | cons name rest ih =>
    obtain ⟨plain, hplain⟩ := List.forall_mem_cons.mp hnames
    obtain ⟨short, hshort⟩ := List.forall_mem_cons.mp hshort
    have hallowed : ¬ (purpose = .making ∧ rest = [""]) := fun h => hpurpose h.1
    have hend : here ++ name :: rest = here ++ [name] ++ rest := List.append_cons ..
    by_cases hdirectory : t.entryAt? (here ++ [name]) = some .directory
    · obtain ⟨way, hway⟩ := ih hplain hshort (hend ▸ hentry)
      exact ⟨_, .down plain short hallowed hdirectory (hend ▸ hway)⟩
    · -- nothing stands below what is no directory
      obtain rfl : rest = [] := by
        by_contra hne
        exact hdirectory (ht.directory_of_isPrefix (List.prefix_append _ _) (hend ▸ hentry)
          (by simpa using hne))
      refine ⟨_, .last plain short ?_⟩
      unfold Ends
      rw [hentry]
      cases entry with
      | file => trivial
      | directory => exact absurd hentry hdirectory
      | link target => exact hlink target rfl

/-- The directory that a path is looked for in where less is, it is looked for in where more is. -/
theorem locateParent_of_shrinks (ht : u.WellFormed) (h : Shrinks area t u) {above : Location}
    {name? : Option String} (hparent : u.locateParent path = .ok (above, name?)) :
    t.locateParent path = .ok (above, name?) := by
  obtain ⟨hcheck, ⟨way, hway⟩, hname⟩ := locateParent_eq_ok_iff.mp hparent
  have habove := (ht.directory_of_leads hway (entryAt?_nil u)).2
  exact locateParent_eq_ok_iff.mpr ⟨hcheck, ⟨way, hway.mono_of_directory habove fun m _ =>
    ⟨fun hm => h.of_entryAt? hm, fun target hm => h.of_entryAt? hm⟩⟩, hname⟩

/-! ## Entries below a path -/

/-- What is above an entry is there. -/
theorem WellFormed.ne_none_of_isPrefix (ht : t.WellFormed) {d : Location} (h : m <+: d)
    (hd : t.entryAt? d ≠ none) : t.entryAt? m ≠ none := by
  obtain ⟨entry, hentry⟩ := Option.ne_none_iff_exists'.mp hd
  by_cases heq : m = d
  · rwa [heq]
  · simp [ht.directory_of_isPrefix h hentry heq]

/-- What has something below it is a directory that the names of a path lead to. -/
theorem WellFormed.leads_walked_of_entry (ht : t.WellFormed) (hl : t.locate .entry path = .ok l)
    (hdirectory : t.entryAt? l = some .directory) :
    ∃ way, t.Leads .target maxLinks [] (walked path) way l := by
  obtain ⟨-, way, hway⟩ := locate_eq_ok_iff.mp hl
  exact ⟨way, ht.leads_walked (hway.target_of_entry hdirectory)⟩

/-- The path of an entry below a place leads to it and to nothing else. -/
theorem WellFormed.eq_append_of_locate (ht : t.WellFormed) (hl : t.locate .entry path = .ok l)
    (hentry : t.entryAt? (l ++ names) = some entry)
    (hm : t.locate .entry (joinAll path names) = .ok m) : m = l ++ names := by
  rcases List.eq_nil_or_concat' names with rfl | ⟨init, last, rfl⟩
  · rw [List.append_nil]
    exact Except.ok.inj (hm.symm.trans hl)
  have hnames : ∀ a ∈ init ++ [last], IsName a := fun a ha =>
    ht.isName_of_mem hentry a (List.mem_append_right _ ha)
  have hdirectory := ht.directory_of_isPrefix (List.prefix_append l _) hentry (by simp)
  obtain ⟨_, hway⟩ := ht.leads_walked_of_entry hl hdirectory
  obtain ⟨k, hk⟩ := hway.followWithin_append hdirectory
  obtain ⟨-, _, hfull⟩ := locate_eq_ok_iff.mp hm
  rw [Path.steps_joinAll (by simp) hnames] at hfull
  obtain ⟨_, hrest⟩ := exists_leads_of_followWithin
    ((hk .entry (init ++ [last]) (by simp) (by simp)).symm.trans hfull.followWithin_eq)
  exact hrest.eq_append_of_entryAt? ht (fun a ha => (hnames a ha).plain) hentry fun _ _ => rfl

/-- The path of a directory below a place is looked for where the directory stands. -/
theorem WellFormed.eq_append_of_locateParent (ht : t.WellFormed)
    (hl : t.locate .entry path = .ok l) (hentry : t.entryAt? (l ++ names) = some entry)
    {above : Location} {name : String} (plain : IsPlain name)
    (hparent : t.locateParent (joinAll path names) = .ok (above, some name))
    (hfound : t.entryAt? (above ++ [name]) = some .directory) : above ++ [name] = l ++ names := by
  obtain ⟨-, ⟨_, hparent⟩, hname⟩ := locateParent_eq_ok_iff.mp hparent
  obtain ⟨hup, habove⟩ := ht.directory_of_leads hparent (entryAt?_nil t)
  rcases List.eq_nil_or_concat' names with rfl | ⟨init, last, rfl⟩
  · -- the last name of the path itself leads to the directory, with or without a slash behind it
    obtain ⟨k, hk⟩ := hup.followWithin_append habove
    have hlast : walked path = (walked path).dropLast ++ [name] :=
      (List.dropLast_append_getLast? name hname.symm).symm
    obtain ⟨-, _, hway⟩ := locate_eq_ok_iff.mp hl
    rw [Path.steps_eq, hlast, List.append_assoc] at hway
    have hend := (hk .entry _ (List.cons_ne_nil _ _) (by simp)).symm.trans hway.followWithin_eq
    obtain ⟨-, -, ⟨-, ends, -⟩ | ⟨-, hend⟩ | ⟨_, present, -⟩⟩ := of_followWithin_plain plain hend
    · simp [Ends, hfound] at ends
    · rw [List.append_nil]
      split at hend
      · exact Except.ok.inj (followWithin_empty.symm.trans hend)
      · exact Except.ok.inj (followWithin_nil.symm.trans hend)
    · simp [hfound] at present
  · have hnames : ∀ a ∈ init ++ [last], IsName a := fun a ha =>
      ht.isName_of_mem hentry a (List.mem_append_right _ ha)
    have hdirectory := ht.directory_of_isPrefix (List.prefix_append l _) hentry (by simp)
    have hinit : t.entryAt? (l ++ init) = some .directory :=
      ht.directory_of_isPrefix (by simp) hentry (by simp)
    rw [Path.walked_joinAll hnames, ← List.append_assoc, List.dropLast_concat] at hup
    rw [Path.walked_joinAll hnames, ← List.append_assoc, List.getLast?_concat] at hname
    obtain rfl := Option.some.inj hname
    obtain ⟨_, hway⟩ := ht.leads_walked_of_entry hl hdirectory
    obtain ⟨k, hk⟩ := hway.followWithin_append hdirectory
    suffices habove : above = l ++ init by rw [habove, List.append_assoc]
    rcases eq_or_ne init [] with rfl | hne
    · rw [List.append_nil] at hup ⊢
      exact hup.unique hway
    · have hinitNames : ∀ a ∈ init, IsPlain a := fun a ha =>
        (hnames a (List.mem_append_left _ ha)).plain
      obtain ⟨_, hrest⟩ := exists_leads_of_followWithin
        ((hk .target init hne (by simp)).symm.trans hup.followWithin_eq)
      exact hrest.eq_append_of_entryAt? ht hinitNames hinit (by simp)

/-! ## Paths that do not depend on what is below them -/

/-- A path ends with the name of an entry, its way passes nothing below the entry, and whatever is
at or below the entry can be looked for under its path. -/
structure IsSteady (t : FileTree) (path : String) (l : Location) : Prop where
  clear : ∃ way, t.Leads .entry maxLinks [] (walked path) way l ∧ ∀ m ∈ way, l <+: m → m = l
  named : ∃ name, (walked path).getLast? = some name ∧ IsPlain name
  slash : Path.hasFinalSlash path → t.entryAt? l = some .directory
  storable : ∀ names, t.entryAt? (l ++ names) ≠ none →
    checkPath (joinAll path names) = .ok () ∧ ∀ a ∈ names, a.utf8ByteSize ≤ maxNameSize

namespace IsSteady

/-- A way to the directory goes on with names. -/
theorem exists_followWithin_append (h : t.IsSteady path l) (hl : t.entryAt? l = some .directory) :
    ∃ k, ∀ (q : Purpose) (rest : List String), rest ≠ [] → (q = .making → rest ≠ [""]) →
      t.followWithin q maxLinks [] (walked path ++ rest) = t.followWithin q k l rest := by
  obtain ⟨_, hway, -⟩ := h.clear
  exact (hway.target_of_entry hl).followWithin_append hl

/-- Whatever is at or below the entry is where its path leads. -/
theorem locate_eq (ht : t.WellFormed) (h : t.IsSteady path l)
    (hentry : t.entryAt? (l ++ names) = some entry) :
    t.locate .entry (joinAll path names) = .ok (l ++ names) := by
  obtain ⟨hcheck, hshort⟩ := h.storable names (by simp [hentry])
  refine locate_eq_ok_iff.mpr ⟨hcheck, followWithin_eq_ok_iff.mp ?_⟩
  rcases List.eq_nil_or_concat' names with rfl | ⟨init, last, rfl⟩
  · obtain ⟨_, hway, -⟩ := h.clear
    rw [List.append_nil]
    change t.followWithin .entry maxLinks [] (Path.steps path) = _
    rw [Path.steps_eq]
    split
    · rename_i hslash
      obtain ⟨k, hk⟩ := h.exists_followWithin_append (h.slash hslash)
      rw [hk .entry [""] (by simp) (by simp), followWithin_empty]
    · rw [List.append_nil, hway.followWithin_eq]
  · have hnames : ∀ a ∈ init ++ [last], IsName a := fun a ha =>
      ht.isName_of_mem hentry a (List.mem_append_right _ ha)
    have hdirectory := ht.directory_of_isPrefix (List.prefix_append l _) hentry (by simp)
    obtain ⟨k, hk⟩ := h.exists_followWithin_append hdirectory
    obtain ⟨_, hrest⟩ := ht.exists_leads_of_entryAt? (n := k)
      (show Purpose.entry ≠ .making by decide)
      (fun a ha => (hnames a ha).plain) hshort hentry fun _ _ => rfl
    rw [Path.steps_joinAll (by simp) hnames, hk .entry _ (by simp) (by simp), hrest.followWithin_eq]

theorem locate_self_eq (ht : t.WellFormed) (h : t.IsSteady path l)
    (hl : t.entryAt? l = some entry) : t.locate .entry path = .ok l := by
  rw [← List.append_nil l] at hl ⊢
  exact h.locate_eq ht hl

/-- A directory at or below the entry is looked for where it stands. -/
theorem exists_locateParent_eq (ht : t.WellFormed) (h : t.IsSteady path l)
    (hentry : t.entryAt? (l ++ names) = some .directory) : ∃ above name,
      t.locateParent (joinAll path names) = .ok (above, some name) ∧ IsPlain name ∧
        above ++ [name] = l ++ names := by
  obtain ⟨hcheck, hshort⟩ := h.storable names (by simp [hentry])
  rcases List.eq_nil_or_concat' names with rfl | ⟨init, last, rfl⟩
  · obtain ⟨name, hname, plain⟩ := h.named
    obtain ⟨_, hway, -⟩ := h.clear
    rw [List.append_nil] at hentry ⊢
    have hlast : walked path = (walked path).dropLast ++ [name] :=
      (List.dropLast_append_getLast? name hname).symm
    obtain ⟨_, above, hup, habove⟩ := ht.exists_leads_of_append
      (hlast ▸ hway.target_of_entry hentry) (by simp) (entryAt?_nil t)
    obtain ⟨k, hk⟩ := hup.followWithin_append habove
    have hparent : t.locateParent path = .ok (above, some name) := by
      rw [locateParent_eq_map (show checkPath path = .ok () from hcheck), hname, resolve,
        hk .target [""] (by simp) (by simp), followWithin_empty]
      rfl
    exact ⟨above, name, hparent, plain, (eq_concat_of_locateParent ht hparent plain hway).symm⟩
  · have hnames : ∀ a ∈ init ++ [last], IsName a := fun a ha =>
      ht.isName_of_mem hentry a (List.mem_append_right _ ha)
    have hdirectory := ht.directory_of_isPrefix (List.prefix_append l _) hentry (by simp)
    have hinit : t.entryAt? (l ++ init) = some .directory :=
      ht.directory_of_isPrefix (by simp) hentry (by simp)
    obtain ⟨k, hk⟩ := h.exists_followWithin_append hdirectory
    obtain ⟨_, hdown⟩ := ht.exists_leads_of_entryAt? (n := k)
      (show Purpose.target ≠ .making by decide)
      (fun a ha => (hnames a (List.mem_append_left _ ha)).plain)
      (fun a ha => hshort a (List.mem_append_left _ ha)) hinit (by simp)
    obtain ⟨k', hk'⟩ := hdown.followWithin_append hinit
    refine ⟨l ++ init, last, ?_, (hnames last (by simp)).plain, List.append_assoc ..⟩
    rw [locateParent_eq_map hcheck, Path.walked_joinAll hnames, ← List.append_assoc,
      List.dropLast_concat, List.getLast?_concat, resolve, List.append_assoc,
      hk .target _ (by simp) (by simp), hk' .target [""] (by simp) (by simp), followWithin_empty]
    rfl

end IsSteady

/-- The path of a tidy workspace is steady. -/
theorem IsTidy.isSteady (h : t.IsTidy path l way) {root last : String}
    (hpath : path = Path.join root last) (hlast : IsName last) : t.IsSteady path l where
  clear := ⟨way, h.workspace.leads, h.workspace.clear⟩
  named := by
    refine ⟨last, ?_, hlast.plain⟩
    rw [hpath, Path.walked_join (Path.isAbsolute_of_noSlash hlast.noSlash),
      Path.walked_of_isName hlast, List.getLast?_concat]
  slash hslash := absurd hslash (by simp [h.workspace.noFinalSlash])
  storable := h.storable

/-! ## Walks and refusals -/

/-- A walk from an entry that is no link comes upon each entry at and below its place, once, and
upon what is in a directory before the directory.  It follows no link, and the flag tells
directories from all else. -/
structure IsWalk (t : FileTree) (l : Location) (listing : List (List String × Bool)) : Prop where
  start : ∃ entry, t.entryAt? l = some entry ∧ ∀ target, entry ≠ .link target
  mem_iff : ∀ names isDirectory, (names, isDirectory) ∈ listing ↔
    ∃ entry, t.entryAt? (l ++ names) = some entry ∧ entry.isDirectory = isDirectory
  inside_first : listing.Pairwise fun a b => ¬ a.1 <+: b.1

/-- What a walk from a place comes upon, in one of the orders in which it can be removed. -/
def walkListing (t : FileTree) (l : Location) : List (List String × Bool) :=
  ((t.below l).map fun entry => (entry.1, entry.2.isDirectory)).reverse ++ [([], t.isDirectoryAt l)]

theorem WellFormed.isWalk_walkListing (ht : t.WellFormed) (hl : t.entryAt? l = some entry)
    (hlink : ∀ target, entry ≠ .link target) : t.IsWalk l (t.walkListing l) where
  start := ⟨entry, hl, hlink⟩
  mem_iff names isDirectory := by
    simp only [walkListing, List.mem_append, List.mem_reverse, List.mem_map, List.mem_singleton,
      Prod.mk.injEq]
    constructor
    · rintro (⟨⟨_, found⟩, hmem, rfl, rfl⟩ | ⟨rfl, rfl⟩)
      · exact ⟨found, (ht.of_mem_below hmem).2.2.1, rfl⟩
      · exact ⟨entry, by rwa [List.append_nil], by simp [isDirectoryAt, hl]⟩
    · rintro ⟨found, hfound, rfl⟩
      by_cases hne : names = []
      · subst hne
        rw [List.append_nil] at hfound
        exact .inr ⟨rfl, by simp [isDirectoryAt, hfound]⟩
      · exact .inl ⟨(names, found), mem_below_iff.mpr
          ⟨hne, hfound, ht.isReached_of_entryAt? hfound⟩, rfl, rfl⟩
  inside_first := by
    have hsorted := (t.pairwise_below l).and (List.pairwise_map.mp (nodup_below t l))
    refine List.pairwise_append.mpr ⟨?_, List.pairwise_singleton _ _, ?_⟩
    · refine List.pairwise_reverse.mpr (List.pairwise_map.mpr (hsorted.imp ?_))
      rintro a b ⟨hle, hne⟩ ⟨more, hmore⟩
      exact hne (eq_of_namesLe hle (hmore ▸ namesLe_append _ _))
    · intro a ha b hb hprefix
      rw [List.mem_singleton.mp hb, List.prefix_nil] at hprefix
      obtain ⟨found, hfound, rfl⟩ := List.mem_map.mp (List.mem_reverse.mp ha)
      exact (ht.of_mem_below hfound).1 hprefix

/-- A walk along a steady path comes upon all there is. -/
theorem IsSteady.contents_eq (ht : t.WellFormed) (h : t.IsSteady path l)
    (hl : t.entryAt? l = some entry) (hlink : ∀ target, entry ≠ .link target) :
    t.contents path = (t.walkListing l).map fun found => (found.1, .ok found.2) := by
  have hfind (names : List String) (hentry : t.entryAt? (l ++ names) = some .directory) :
      t.find (joinAll path names) = .ok .directory := by
    obtain ⟨hcheck, way, hway⟩ := locate_eq_ok_iff.mp (h.locate_eq ht hentry)
    exact find_eq_ok_iff.mpr
      ⟨_, locate_eq_ok_iff.mpr ⟨hcheck, way, hway.target_of_entry hentry⟩, hentry⟩
  have hwalk : t.walkBelow path l = t.below l := by
    refine List.filter_eq_self.mpr fun ⟨names, found⟩ hmem => ?_
    obtain ⟨hne, -, hentry, -⟩ := ht.of_mem_below hmem
    have habove := ht.ne_none_of_isPrefix
      ((List.prefix_append_right_inj l).mpr (List.dropLast_prefix names)) (by simp [hentry])
    exact (checkPath_eq_ok_iff.mp (h.storable _ habove).1).2.2
  have hlook (found : List String × Entry) (hmem : found ∈ t.below l) :
      t.lookInto (joinAll path found.1) found.2 = .ok found.2.isDirectory := by
    obtain ⟨names, entry⟩ := found
    obtain ⟨-, -, hentry, -⟩ := ht.of_mem_below hmem
    cases entry with
    | file | link => rfl
    | directory => simp [lookInto, hfind names hentry, Entry.isDirectory, Except.map]
  have hinside : (t.below l).map (fun found =>
      (found.1, t.lookInto (joinAll path found.1) found.2)) =
      (t.below l).map fun found => (found.1, .ok found.2.isDirectory) :=
    List.map_congr_left fun found hmem => by rw [hlook found hmem]
  rw [contents, h.locate_self_eq ht hl, walkListing]
  cases entry with
  | link target => exact absurd rfl (hlink target)
  | file | directory =>
    simp [hl, hwalk, isDirectoryAt, hinside, Entry.isDirectory, Function.comp_def]

/-- The place of the entry that is removed under a path. -/
def removalPlace? (t : FileTree) (isDirectory : Bool) (path : String) : Option Location :=
  if isDirectory then
    match t.locateParent path with
    | .ok (above, some name) => some (above ++ [name])
    | _ => none
  else (t.locate .entry path).toOption

/-- The answer to a removal, unless it is refused. -/
def unlessRefused (t : FileTree) (refusal? : Option Error) (reply : Except Error Unit × FileTree) :
    Except Error Unit × FileTree :=
  match refusal? with
  | some e => (.error e, t)
  | none => reply

/-- Answers as a file tree does, apart from removals of entries at places with a refusal.  A walk
comes upon a given listing. -/
def serveRefusing (refusal? : Location → Option Error) (listing : List (List String × Bool)) :
    Server FileTree
  | .contents _, t => (listing.map fun (names, isDirectory) => (names, .ok isDirectory), t)
  | .removeFile path, t =>
    t.unlessRefused ((t.removalPlace? false path).bind refusal?) (serve (.removeFile path) t)
  | .removeDirectory path, t =>
    t.unlessRefused ((t.removalPlace? true path).bind refusal?) (serve (.removeDirectory path) t)
  | r, t => serve r t

namespace IsWalk

variable {before after : List (List String × Bool)}

/-- The directories above an entry come later. -/
theorem notMem_of_isPrefix (h : t.IsWalk l (before ++ (names, isDirectory) :: after))
    (hstart : start <+: names) : start ∉ before.map Prod.fst := by
  intro hmem
  obtain ⟨⟨_, _⟩, hbefore, rfl⟩ := List.mem_map.mp hmem
  exact (List.pairwise_append.mp h.inside_first).2.2 _ hbefore _ List.mem_cons_self hstart

/-- What is in a directory comes before it. -/
theorem mem_of_below (h : t.IsWalk l (before ++ (names, isDirectory) :: after))
    {more : List String} (hne : more ≠ [])
    (hentry : t.entryAt? (l ++ (names ++ more)) = some entry) :
    names ++ more ∈ before.map Prod.fst := by
  have hmem := (h.mem_iff _ _).mpr ⟨entry, hentry, rfl⟩
  rcases List.mem_append.mp hmem with hmem | hmem
  · exact List.mem_map_of_mem hmem
  rcases List.mem_cons.mp hmem with heq | hmem
  · simp [hne] at heq
  · have hlater := (List.pairwise_append.mp h.inside_first).2.1
    exact absurd (List.prefix_append _ _) (List.rel_of_pairwise_cons hlater hmem)

/-- An entry comes once. -/
theorem notMem_before_of_mem_after (h : t.IsWalk l (before ++ (names, isDirectory) :: after))
    {x : List String × Bool} (hx : x ∈ after) : x.1 ∉ before.map Prod.fst := by
  intro hmem
  obtain ⟨y, hy, heq⟩ := List.mem_map.mp hmem
  exact (List.pairwise_append.mp h.inside_first).2.2 y hy x (List.mem_cons_of_mem _ hx)
    (heq ▸ List.prefix_rfl)

end IsWalk

/-- A tree is another one without the entries that these names lead to. -/
structure Lacks (t : FileTree) (l : Location) (gone : List (List String)) (u : FileTree) :
    Prop where
  shrinks : Shrinks (fun _ => True) t u
  entryAt? : ∀ m, u.entryAt? m = if m ∈ gone.map (l ++ ·) then none else t.entryAt? m

namespace Lacks

variable {gone : List (List String)}

theorem refl : t.Lacks l [] t := ⟨.refl, by simp⟩

theorem entryAt?_append (h : t.Lacks l gone u) (names : List String) :
    u.entryAt? (l ++ names) = if names ∈ gone then none else t.entryAt? (l ++ names) := by
  rw [h.entryAt?]
  simp

theorem of_takes (h : t.Lacks l gone u) (htakes : u.Takes (l ++ names) w) :
    t.Lacks l (gone ++ [names]) w where
  shrinks := h.shrinks.tail ⟨_, trivial, htakes⟩
  entryAt? m := by
    rw [htakes.entryAt?, h.entryAt?]
    by_cases hm : m = l ++ names <;> simp [hm]

/-- Nothing at or below a place is left where everything that a walk comes upon is gone. -/
theorem entryAt?_of_isWalk {listing : List (List String × Bool)} (hwalk : t.IsWalk l listing)
    (h : t.Lacks l (listing.map Prod.fst) u) (m : Location) :
    u.entryAt? m = if l <+: m then none else t.entryAt? m := by
  split
  · rename_i hprefix
    obtain ⟨names, rfl⟩ := hprefix
    rw [h.entryAt?_append, ite_eq_left_iff]
    intro hleft
    by_contra hpresent
    obtain ⟨found, hfound⟩ := Option.ne_none_iff_exists'.mp hpresent
    exact hleft (List.mem_map_of_mem ((hwalk.mem_iff names _).mpr ⟨found, hfound, rfl⟩))
  · rename_i hprefix
    rw [h.entryAt?, if_neg]
    intro hmem
    obtain ⟨names, -, rfl⟩ := List.mem_map.mp hmem
    exact hprefix (List.prefix_append ..)

/-- A steady path stays one until the entry itself is removed. -/
theorem isSteady (h : t.Lacks l gone u) (hsteady : t.IsSteady path l) (hself : [] ∉ gone) :
    u.IsSteady path l := by
  have hl : u.entryAt? l = t.entryAt? l := by
    have hself := h.entryAt?_append []
    rwa [if_neg ‹_›, List.append_nil] at hself
  obtain ⟨way, hway, hclear⟩ := hsteady.clear
  have hstays (m : Location) (hm : m ∈ way) : t.Stays u m := by
    have heq : u.entryAt? m = t.entryAt? m := by
      by_cases hprefix : l <+: m
      · rw [hclear m hm hprefix, hl]
      · rw [h.entryAt?, if_neg]
        rintro hmem
        obtain ⟨names, -, rfl⟩ := List.mem_map.mp hmem
        exact hprefix (List.prefix_append ..)
    rw [Stays, heq]
    exact ⟨id, fun _ => id⟩
  refine ⟨⟨way, hway.mono hstays fun ends => ?_, hclear⟩, hsteady.named,
    fun hslash => hl ▸ hsteady.slash hslash, fun names hnames => hsteady.storable names ?_⟩
  · rwa [Ends, hl]
  · rw [h.entryAt?] at hnames
    split at hnames <;> simp_all

end Lacks

end FileTree

namespace Build

open FileTree

variable {t u w : FileTree} {l : Location} {path : String} {names : List String}
  {gone : List (List String)} {isDirectory : Bool} {asked : List Request} {server : Server FileTree}
  {refusal? : Location → Option FileTree.Error} {e : FileTree.Error}

/-! ## Single removals -/

/-- Surroundings answer removals as a file tree does, apart from refusals. -/
structure Refuses (server : Server FileTree) (refusal? : Location → Option FileTree.Error) :
    Prop where
  removeFile : ∀ path u, server (.removeFile path) u =
    u.unlessRefused ((u.removalPlace? false path).bind refusal?) (serve (.removeFile path) u)
  removeDirectory : ∀ path u, server (.removeDirectory path) u =
    u.unlessRefused ((u.removalPlace? true path).bind refusal?) (serve (.removeDirectory path) u)

theorem refuses_serveRefusing (refusal? : Location → Option FileTree.Error)
    (listing : List (List String × Bool)) : Refuses (serveRefusing refusal? listing) refusal? :=
  ⟨fun _ _ => rfl, fun _ _ => rfl⟩

theorem refuses_serve : Refuses serve fun _ => none :=
  ⟨fun _ _ => by simp [unlessRefused], fun _ _ => by simp [unlessRefused]⟩

/-- A removal is refused, or the tree decides. -/
theorem Refuses.of_does_remove (hserver : Refuses server refusal?)
    {answer : Except FileTree.Error Unit}
    (h : (Work.remove isDirectory path).Does server u asked answer w) :
    ((u.removalPlace? isDirectory path).bind refusal? = none ∧
        (Work.remove isDirectory path).Does serve u asked answer w) ∨
      ∃ e, (u.removalPlace? isDirectory path).bind refusal? = some e ∧ answer = .error e ∧
        w = u := by
  cases isDirectory with
  | false =>
    obtain ⟨rfl, rfl, rfl⟩ := h.of_request
    rw [hserver.removeFile]
    cases hrefusal : (u.removalPlace? false path).bind refusal? with
    | none => exact .inl ⟨rfl, Work.does_request serve (.removeFile path) u⟩
    | some e => exact .inr ⟨e, rfl, rfl, rfl⟩
  | true =>
    obtain ⟨rfl, rfl, rfl⟩ := h.of_request
    rw [hserver.removeDirectory]
    cases hrefusal : (u.removalPlace? true path).bind refusal? with
    | none => exact .inl ⟨rfl, Work.does_request serve (.removeDirectory path) u⟩
    | some e => exact .inr ⟨e, rfl, rfl, rfl⟩

/-- What is removed under the path of an entry is this entry, in whatever is left of the tree. -/
theorem takes_append_of_remove (ht : t.WellFormed) (hl : t.locate .entry path = .ok l)
    (hu : t.Lacks l gone u) {entry : Entry} (hentry : t.entryAt? (l ++ names) = some entry)
    (h : (Work.remove isDirectory (joinAll path names)).Does serve u asked (.ok ()) w) :
    u.removalPlace? isDirectory (joinAll path names) = some (l ++ names) ∧
      u.Takes (l ++ names) w := by
  have hwf := hu.shrinks.changes.wellFormed ht
  cases isDirectory with
  | false =>
    obtain ⟨-, hanswer, hw⟩ := h.of_request
    obtain ⟨v, hremove, hv⟩ := exists_of_changed_eq_ok hanswer.symm
    obtain rfl : w = v := hw.trans hv
    obtain ⟨m, hm, htakes⟩ := removeFile_takes hwf hremove
    have hfound : u.entryAt? m ≠ none := by
      intro hnone
      simp [FileTree.removeFile, hm, hnone, bind, Except.bind] at hremove
    obtain ⟨found, hfound⟩ := Option.ne_none_iff_exists'.mp hfound
    obtain rfl := ht.eq_append_of_locate hl hentry (locate_of_shrinks hu.shrinks hm hfound)
    exact ⟨by simp [removalPlace?, hm, Except.toOption], htakes⟩
  | true =>
    obtain ⟨-, hanswer, hw⟩ := h.of_request
    obtain ⟨v, hremove, hv⟩ := exists_of_changed_eq_ok hanswer.symm
    obtain rfl : w = v := hw.trans hv
    obtain ⟨above, name, hparent, plain, hfound, htakes⟩ := removeDirectory_takes hremove
    have heq := ht.eq_append_of_locateParent hl hentry plain
      (locateParent_of_shrinks hwf hu.shrinks hparent) (hu.shrinks.of_entryAt? hfound)
    exact ⟨by simp [removalPlace?, hparent, heq], heq ▸ htakes⟩

/-- A removal that fails changes nothing. -/
theorem Refuses.eq_of_does_remove (hserver : Refuses server refusal?)
    (h : (Work.remove isDirectory path).Does server u asked (.error e) w) : w = u := by
  obtain ⟨-, hremove⟩ | ⟨_, -, -, rfl⟩ := hserver.of_does_remove h
  · exact eq_of_remove_error hremove
  · rfl

/-- **A removal that succeeds takes away the entry** that the walk came upon, and was not
refused. -/
theorem Refuses.lacks_of_does_remove (hserver : Refuses server refusal?) (ht : t.WellFormed)
    (hl : t.locate .entry path = .ok l) (hu : t.Lacks l gone u) {entry : Entry}
    (hentry : t.entryAt? (l ++ names) = some entry)
    (h : (Work.remove isDirectory (joinAll path names)).Does server u asked (.ok ()) w) :
    refusal? (l ++ names) = none ∧ t.Lacks l (gone ++ [names]) w := by
  obtain ⟨hallowed, hremove⟩ | ⟨_, -, ⟨⟩, -⟩ := hserver.of_does_remove h
  obtain ⟨hplace, htakes⟩ := takes_append_of_remove ht hl hu hentry hremove
  exact ⟨by simpa [hplace] using hallowed, hu.of_takes htakes⟩

/-- An entry with nothing below it is removed under a steady path. -/
theorem exists_does_remove_of_isSteady (ht : t.WellFormed) (h : t.IsSteady path l) {entry : Entry}
    (hentry : t.entryAt? (l ++ names) = some entry)
    (hbare : ∀ m, l ++ names <+: m → m ≠ l ++ names → t.entryAt? m = none) :
    t.removalPlace? entry.isDirectory (joinAll path names) = some (l ++ names) ∧
      ∃ asked u, (Work.remove entry.isDirectory (joinAll path names)).Does serve t asked
        (.ok ()) u := by
  cases hkind : entry.isDirectory with
  | false =>
    have hlocate := h.locate_eq ht hentry
    have hremove : t.removeFile (joinAll path names) = .ok (t.erase (l ++ names)) := by
      rw [FileTree.removeFile, hlocate]
      cases entry with
      | directory => simp [Entry.isDirectory] at hkind
      | file | link => simp [bind, Except.bind, hentry]
    exact ⟨by simp [removalPlace?, hlocate, Except.toOption], _, _, does_removeFile hremove⟩
  | true =>
    obtain rfl : entry = .directory := by cases entry <;> simp_all [Entry.isDirectory]
    obtain ⟨above, name, hparent, plain, heq⟩ := h.exists_locateParent_eq ht hentry
    have hremove := removeDirectory_eq_ok hparent plain (heq ▸ hentry) (heq ▸ hbare)
    exact ⟨by simp [removalPlace?, hparent, heq], _, _, does_removeDirectory hremove⟩

/-- **Nothing but a refusal keeps an entry** that is below a steady path, when its turn comes. -/
theorem Refuses.refusal?_of_does_remove (hserver : Refuses server refusal?) (ht : t.WellFormed)
    (h : t.IsSteady path l) {before after : List (List String × Bool)}
    (hwalk : t.IsWalk l (before ++ (names, isDirectory) :: after))
    (hu : t.Lacks l (before.map Prod.fst) u)
    (hdoes : (Work.remove isDirectory (joinAll path names)).Does server u asked (.error e) w) :
    refusal? (l ++ names) = some e := by
  obtain ⟨entry, hentry, rfl⟩ := (hwalk.mem_iff names isDirectory).mp (by simp)
  have hsteady := hu.isSteady h (hwalk.notMem_of_isPrefix List.nil_prefix)
  have hleft : u.entryAt? (l ++ names) = some entry := by
    rw [hu.entryAt?_append, if_neg (hwalk.notMem_of_isPrefix List.prefix_rfl), hentry]
  obtain ⟨hplace, _, _, hremoves⟩ := exists_does_remove_of_isSteady
      (hu.shrinks.changes.wellFormed ht) hsteady hleft fun m hm hne => by
    obtain ⟨more, rfl⟩ := hm
    rw [List.append_assoc] at hne ⊢
    rw [hu.entryAt?_append, ite_eq_left_iff]
    intro hleft
    by_contra hpresent
    obtain ⟨found, hfound⟩ := Option.ne_none_iff_exists'.mp hpresent
    exact hleft (hwalk.mem_of_below (by simpa using hne) hfound)
  obtain ⟨-, hremove⟩ | ⟨_, hrefusal, heq, -⟩ := hserver.of_does_remove hdoes
  · obtain ⟨-, ⟨⟩, -⟩ := hremoves.unique hremove
  · obtain rfl := Except.error.inj heq
    simpa [hplace] using hrefusal

/-! ## Rows of removals -/

/-- How the removal of what a walk comes upon ends. -/
inductive Removal (server : Server FileTree) (refusal? : Location → Option FileTree.Error)
    (t : FileTree) (path : String) (l : Location) (listing : List (List String × Bool)) :
    Except CleanupError Unit → FileTree → Prop
  | complete {u : FileTree} (allowed : ∀ x ∈ listing, refusal? (l ++ x.1) = none)
      (gone : ∀ m, u.entryAt? m = if l <+: m then none else t.entryAt? m) :
      Removal server refusal? t path l listing (.ok ()) u
  /-- The removal of an entry fails, and under a steady path this is a refusal. -/
  | stopped {before after : List (List String × Bool)} {names : List String} {isDirectory : Bool}
      {e : FileTree.Error} {asked : List Request} {u : FileTree}
      (split : listing = before ++ (names, isDirectory) :: after)
      (fails : (Work.remove isDirectory (joinAll path names)).Does server u asked (.error e) u)
      (refused : t.IsSteady path l → refusal? (l ++ names) = some e)
      (allowed : ∀ x ∈ before, refusal? (l ++ x.1) = none)
      (gone : ∀ m, u.entryAt? m = if m ∈ before.map (l ++ ·.1) then none else t.entryAt? m)
      (above : ∀ m, m <+: l ++ names → u.entryAt? m ≠ none)
      (later : ∀ x ∈ after, u.entryAt? (l ++ x.1) ≠ none) :
      Removal server refusal? t path l listing (.error (.unremoved (joinAll path names) e)) u

/-- The row of removals for what a walk comes upon. -/
def row (listing : List (List String × Bool)) : List Remains :=
  listing.map fun (names, isDirectory) => (names, .ok isDirectory)

/-- A row of removals goes as far as nothing fails. -/
theorem Refuses.exists_does_removeEntries (hserver : Refuses server refusal?) (ht : t.WellFormed)
    (hl : t.locate .entry path = .ok l) (before : List (List String × Bool))
    {rest : List (List String × Bool)} (hwalk : t.IsWalk l (before ++ rest))
    (hu : t.Lacks l (before.map Prod.fst) u)
    (hallowed : ∀ x ∈ before, refusal? (l ++ x.1) = none) : ∃ asked result w,
      (removeEntries path (row rest)).outcome.Does server u asked result w ∧
        Removal server refusal? t path l (before ++ rest) result w := by
  induction rest generalizing before u with
  | nil =>
    rw [List.append_nil] at *
    exact ⟨_, _, u, Attempt.does_pure server () u, .complete hallowed (hu.entryAt?_of_isWalk hwalk)⟩
  | cons x after ih =>
    obtain ⟨names, isDirectory⟩ := x
    obtain ⟨entry, hentry, -⟩ := (hwalk.mem_iff names isDirectory).mp (by simp)
    have hremove := Work.does_self server (Work.remove isDirectory (joinAll path names)) u
    generalize hanswer : ((Work.remove isDirectory (joinAll path names)).run server u).1 = answer
      at hremove
    cases answer with
    | ok =>
      obtain ⟨hfirst, hw⟩ := hserver.lacks_of_does_remove ht hl hu hentry hremove
      have hsplit : before ++ (names, isDirectory) :: after =
        before ++ [(names, isDirectory)] ++ after := List.append_cons ..
      rw [hsplit] at hwalk ⊢
      obtain ⟨_, result, w, hrest, hremoval⟩ := ih _ hwalk (by simpa using hw)
        (List.forall_mem_append.mpr ⟨hallowed, List.forall_mem_singleton.mpr hfirst⟩)
      exact ⟨_, result, w, Attempt.does_bind_ok (Attempt.does_of _ hremove) hrest, hremoval⟩
    | error e =>
      have hsame := hserver.eq_of_does_remove hremove
      rw [hsame] at hremove
      refine ⟨_, _, u, Attempt.does_bind_error (Attempt.does_of _ hremove), .stopped rfl hremove
        (fun hsteady => hserver.refusal?_of_does_remove ht hsteady hwalk hu hremove) hallowed
        (fun m => ?_) (fun m hm => ?_) fun x hx => ?_⟩
      · rw [hu.entryAt?, List.map_map]
        rfl
      · rw [hu.entryAt?, if_neg]
        · exact ht.ne_none_of_isPrefix hm (by simp [hentry])
        · intro hmem
          obtain ⟨start, hstart, rfl⟩ := List.mem_map.mp hmem
          exact hwalk.notMem_of_isPrefix ((List.prefix_append_right_inj l).mp hm) hstart
      · rw [hu.entryAt?_append, if_neg (hwalk.notMem_before_of_mem_after hx)]
        obtain ⟨found, hfound, -⟩ := (hwalk.mem_iff x.1 x.2).mp (by simp [hx])
        simp [hfound]

/-- **A removal takes away the entries before the first failure and nothing else**: the surroundings
refuse what they like, the entries are in any order in which insides come first, and links inside
are entries like others. -/
theorem removeTree_takes_up_to_failure (refusal? : Location → Option FileTree.Error)
    (ht : t.WellFormed) (hl : t.locate .entry path = .ok l) {listing : List (List String × Bool)}
    (hwalk : t.IsWalk l listing) : ∃ asked result u,
      (removeTree path).outcome.Does (serveRefusing refusal? listing) t asked result u ∧
        Removal (serveRefusing refusal? listing) refusal? t path l listing result u := by
  have hserver := refuses_serveRefusing refusal? listing
  obtain ⟨_, result, u, hrow, hremoval⟩ :=
    hserver.exists_does_removeEntries ht hl [] hwalk .refl (by simp)
  have hcontents : (Work.contents path).Does (serveRefusing refusal? listing) t
      [.contents path] (row listing) t :=
    Work.does_request (serveRefusing refusal? listing) (.contents path) t
  exact ⟨_, result, u, Attempt.does_bind_ok (Attempt.does_lift hcontents) hrow, hremoval⟩

/-- Where nothing is refused, all that a steady path leads to is removed, links inside included. -/
theorem exists_does_removeTree_of_isSteady (ht : t.WellFormed) (h : t.IsSteady path l)
    {entry : Entry} (hl : t.entryAt? l = some entry) (hlink : ∀ target, entry ≠ .link target) :
    ∃ asked u, (removeTree path).outcome.Does serve t asked (.ok ()) u ∧
      ∀ m, u.entryAt? m = if l <+: m then none else t.entryAt? m := by
  obtain ⟨_, result, u, hrow, hremoval⟩ := refuses_serve.exists_does_removeEntries ht
    (h.locate_self_eq ht hl) [] (ht.isWalk_walkListing hl hlink) .refl (by simp)
  have hcontents : (Work.contents path).Does serve t [.contents path]
      (row (t.walkListing l)) t := by
    rw [row, ← h.contents_eq ht hl hlink]
    exact Work.does_request serve (.contents path) t
  cases hremoval with
  | complete _ gone => exact ⟨_, u, Attempt.does_bind_ok (Attempt.does_lift hcontents) hrow, gone⟩
  | stopped _ _ refused => simpa using refused h

/-! ## A removal that is refused -/

/-- A directory with a file, a directory and a link to a file outside. -/
def shelfTree : FileTree where
  entries := [(["run"], .directory), (["run", "a"], .directory),
    (["run", "a", "x"], .file "inside".toUTF8 0), (["run", "l"], .link "../keep"),
    (["keep"], .file "outside".toUTF8 0)]

/-- Nobody may remove the directory in the directory. -/
def refuseInner (l : Location) : Option FileTree.Error :=
  if l = ["run", "a"] then some .permissionDenied else none

theorem wellFormed_shelfTree : shelfTree.WellFormed := wellFormed_of_hasRoom (by decide)

theorem isSteady_shelfTree : shelfTree.IsSteady "run" ["run"] where
  clear := by
    have hwalked : walked "run" = ["run"] := by decide
    exact ⟨[["run"]], hwalked ▸ .down (by decide) (by decide) (by simp) rfl .stay,
      fun m hm _ => List.mem_singleton.mp hm⟩
  named := ⟨"run", by decide, by decide⟩
  slash _ := rfl
  storable names hpresent := by
    obtain ⟨entry, hentry⟩ := Option.ne_none_iff_exists'.mp hpresent
    have hmem := mem_entries_of_entryAt? (by simp) hentry
    have hnames : names ∈ [[], ["a"], ["a", "x"], ["l"]] := by
      simpa [shelfTree] using List.mem_map_of_mem (f := Prod.fst) hmem
    have hstorable : ∀ names ∈ [[], ["a"], ["a", "x"], ["l"]],
        checkPath (joinAll "run" names) = .ok () ∧ ∀ a ∈ names, a.utf8ByteSize ≤ maxNameSize := by
      decide
    exact hstorable names hnames

/-- The removal stops at the directory: what is in it is gone, and the link too, but not what the
link leads to. -/
theorem removeTree_shelfTree : ∃ asked u,
    (removeTree "run").outcome.Does (serveRefusing refuseInner (shelfTree.walkListing ["run"]))
      shelfTree asked (.error (.unremoved "run/a" .permissionDenied)) u ∧
    u.entryAt? ["run", "a", "x"] = none ∧ u.entryAt? ["run", "a"] ≠ none ∧
    u.entryAt? ["keep"] = shelfTree.entryAt? ["keep"] := by
  have hl : shelfTree.entryAt? ["run"] = some .directory := rfl
  have hwalk := wellFormed_shelfTree.isWalk_walkListing hl (by simp)
  obtain ⟨asked, result, u, hdoes, hremoval⟩ := removeTree_takes_up_to_failure refuseInner
    wellFormed_shelfTree (isSteady_shelfTree.locate_self_eq wellFormed_shelfTree hl) hwalk
  cases hremoval with
  | complete allowed =>
    have hinner := allowed (["a"], true) ((hwalk.mem_iff _ _).mpr ⟨.directory, rfl, rfl⟩)
    simp [refuseInner] at hinner
  | @stopped before _ names _ e _ _ split _ refused _ gone above =>
    have hrefused := refused isSteady_shelfTree
    simp only [refuseInner, List.cons_append, List.nil_append, List.cons.injEq, true_and,
      Option.ite_none_right_eq_some, Option.some.injEq] at hrefused
    obtain ⟨rfl, rfl⟩ := hrefused
    rw [split] at hwalk
    have hinside : ["a", "x"] ∈ before.map Prod.fst := hwalk.mem_of_below (by simp)
      (show shelfTree.entryAt? _ = some (.file "inside".toUTF8 0) from rfl)
    refine ⟨asked, u, hdoes, ?_, above _ List.prefix_rfl, ?_⟩
    · rw [gone, if_pos]
      simpa using hinside
    · rw [gone, if_neg (by simp)]

end Build

end IdlCompiler
