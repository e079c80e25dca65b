/-
# Trees between two others

A tree is between an earlier and a later one if all of the earlier one lasts in it, and all of it
lasts in the later one.  What is a directory in the later tree can be made in the tree between,
and then paths to files lead where they lead in the later tree.  A link could prevent this that
leads nowhere at the start and somewhere in the end.

Main statements: `Between.makeDirectories_eq`, `Between.locate_eq` and, of both, a place for a file:
`Between.exists_place`.
-/
import IdlCompiler.Proofs.Lasting
import IdlCompiler.Proofs.Redeliveries

namespace IdlCompiler

namespace Path

/-- A parent does not end with a slash, nor with an idle name unless all of its names are idle. -/
theorem walked_parent_cases (p : String) : hasFinalSlash (parent p) = false ∧
    ((∀ a ∈ walked (parent p), IsIdle a) ∨
      ∃ names name, walked (parent p) = names ++ [name] ∧ ¬ IsIdle name) := by
  obtain ⟨first, rest, hraw⟩ := List.exists_cons_of_ne_nil (rawNames_ne_nil p)
  by_cases hrest : dropIdleEnd rest = []
  · have hparent : parent p = "" := by simp [parent, above_eq_nil hraw hrest]
    rw [hparent, walked_empty]
    exact ⟨by decide, .inl (by simp)⟩
  have hparent := (above_eq_cons hraw hrest).1
  have hfront : dropIdleEnd (dropIdleEnd rest).dropLast <+: rest :=
    (dropIdleEnd_isPrefix _).trans ((List.dropLast_prefix _).trans (dropIdleEnd_isPrefix rest))
  have htidy := dropIdleEnd_dropIdleEnd (dropIdleEnd rest).dropLast
  generalize dropIdleEnd (dropIdleEnd rest).dropLast = names at hparent hfront htidy
  have hnames := rawNames_join hraw hfront
  rw [← hparent] at hnames
  have hfirst : '/' ∉ first.toList := noSlash_of_mem_rawNames (hraw ▸ List.mem_cons_self)
  rcases List.eq_nil_or_concat' names with rfl | ⟨before, last, rfl⟩
  · have hone : parent p = first := by rw [← intercalate_rawNames (parent p), hnames]; rfl
    refine ⟨hone ▸ hasFinalSlash_of_noSlash hfirst, ?_⟩
    by_cases hidle : IsIdle first
    · refine .inl fun a ha => ?_
      rw [walked, hnames] at ha
      rwa [List.mem_singleton.mp (List.mem_of_mem_filter ha)]
    · have hne : first ≠ "" := fun h => hidle (.inl h)
      exact .inr ⟨[], first, by simp [walked, hnames, hne], hidle⟩
  · have hlast : ¬ IsIdle last := fun hidle =>
      dropIdleEnd_ne_concat (dropIdleEnd_concat_idle hidle ▸ htidy)
    have hne : last ≠ "" := fun h => hlast (.inl h)
    constructor
    · have hmem : last ∈ rest := hfront.subset (by simp)
      have hslash : '/' ∉ last.toList :=
        noSlash_of_mem_rawNames (hraw ▸ List.mem_cons_of_mem first hmem)
      rw [hparent, intercalate_append first before (List.cons_ne_nil last []),
        ← String.append_assoc]
      exact (hasFinalSlash_append hne _).trans (hasFinalSlash_of_noSlash hslash)
    · refine .inr ⟨(first :: before).filter fun a => a ≠ "", last, ?_, hlast⟩
      rw [walked, hnames, ← List.cons_append, List.filter_append]
      simp [hne]

theorem hasFinalSlash_of_mem_above {path : String} (h : p ∈ above path) :
    hasFinalSlash p = false := by
  induction hn : (above path).length using Nat.strong_induction_on generalizing path with
  | _ n ih =>
    by_cases hempty : parent path = ""
    · simp [above_eq_parent path, hempty] at h
    rw [above_eq_parent, if_neg hempty] at h hn
    rcases List.mem_cons.mp h with rfl | h
    · exact (walked_parent_cases path).1
    · exact ih _ (by rw [← hn, List.length_cons]; omega) h rfl

end Path

namespace FileTree

open IdlCompiler.Path (IsPlain IsName IsIdle walked)

variable {o t u v w : FileTree} {l d : Location} {path name : String} {names : List String}
  {way : List Location}

/-! ## Directories above a path -/

/-- Where its parent leads is the directory that the last name of a path stands in. -/
theorem WellFormed.leads_of_isDirectory_parent (ht : t.WellFormed)
    (hwalked : walked path = names ++ [name]) (hname : ¬ IsIdle name)
    (h : Path.parent path = "" ∨ t.isDirectory (Path.parent path)) :
    ∃ way d, t.Leads .target maxLinks [] names way d ∧ t.entryAt? d = some .directory := by
  obtain ⟨idle, rfl, hidle⟩ := Path.exists_eq_walked_parent_append hwalked hname
  obtain ⟨way, d, hway, hd⟩ : ∃ way d,
      t.Leads .target maxLinks [] (walked (Path.parent path)) way d ∧
        t.entryAt? d = some .directory := by
    rcases h with hparent | hparent
    · exact ⟨[], [], by rw [hparent, Path.walked_empty]; exact .stay, entryAt?_nil t⟩
    · obtain ⟨d, hd, hdirectory⟩ := isDirectory_iff.mp hparent
      obtain ⟨-, way, hway⟩ := locate_eq_ok_iff.mp hd
      exact ⟨way, d, ht.leads_walked hway, hdirectory⟩
  cases idle with
  | nil => exact ⟨way, d, by rwa [List.append_nil], hd⟩
  | cons a idle =>
    obtain ⟨m, hm⟩ := hway.followWithin_append hd
    have hon := hm .target (a :: idle) (by simp) (by simp)
    rw [followWithin_of_forall_isIdle hidle] at hon
    obtain ⟨way', hway'⟩ := exists_leads_of_followWithin hon
    exact ⟨way', d, hway', hd⟩

/-! ## Trees between two others -/

/-- All that is in an earlier tree lasts in this one, and all of this lasts in a later one. -/
structure Between (o u w : FileTree) : Prop where
  wellFormed : w.WellFormed
  early : o.Lasts w
  late : w.Lasts u

/-- A path does not lead through a link of a later tree to what is missing from the start. -/
def IsFirm (o u : FileTree) (path : String) : Prop :=
  ∀ l target, u.locate .entry path = .ok l → u.entryAt? l = some (.link target) →
    ∃ entry, o.find path = .ok entry

theorem Lasts.directory_of_later (h : t.Lasts u) (hl : t.entryAt? l ≠ none)
    (hu : u.entryAt? l = some .directory) : t.entryAt? l = some .directory := by
  obtain ⟨-, _, _, hfile⟩ | ⟨hdirectory, -⟩ | ⟨_, -, hlink⟩ := h.entry_cases hl
  · simp [hu] at hfile
  · exact hdirectory
  · simp [hu] at hlink

/-- What holds of the links of a later tree holds of those of an earlier one. -/
theorem IsFirm.of_lasts (h : IsFirm o u path) (hlasts : w.Lasts u) : IsFirm o w path := by
  intro l target hl hlink
  obtain ⟨hcheck, way, hway⟩ := locate_eq_ok_iff.mp hl
  have hlater := (hlasts.stays l).2 target hlink
  refine h l target (locate_eq_ok_iff.mpr ⟨hcheck, way, hway.mono (fun m _ => hlasts.stays m) ?_⟩)
    hlater
  simp [Ends, hlater]

/-- What is a directory in the later tree and there from the start is a directory in between. -/
theorem Between.isDirectory_of_find (h : Between o u w) {entry : Entry}
    (hfind : o.find path = .ok entry) (hpath : u.isDirectory path) : w.isDirectory path := by
  obtain ⟨l, hl, hentry⟩ := find_eq_ok_iff.mp hfind
  obtain ⟨m, hm, hdirectory⟩ := isDirectory_iff.mp hpath
  have hthere : o.entryAt? l ≠ none := by simp [hentry]
  have hw := h.early.locate_eq hl hthere
  have hthere' := h.early.ne_none hthere
  obtain rfl := Except.ok.inj ((h.late.locate_eq hw hthere').symm.trans hm)
  exact isDirectory_iff.mpr ⟨l, hw, h.late.directory_of_later hthere' hdirectory⟩

theorem Between.of_adds (h : Between o u w) (hadds : w.Adds l v)
    (hl : (v.entryAt? l = some .directory ∧ u.entryAt? l = some .directory) ∨
      v.IsFileAt l ∧ u.IsFileAt l) : Between o u v where
  wellFormed := hadds.wellFormed h.wellFormed
  early := h.early.trans ⟨hadds.stays, fun _ => hadds.isFileAt⟩
  late := by
    refine ⟨fun m => ?_, fun m hm => ?_⟩
    · by_cases hml : m = l
      · subst hml
        obtain ⟨hv, hu⟩ | ⟨⟨_, _, hv⟩, -⟩ := hl
        · simp [Stays, hv, hu]
        · simp [Stays, hv]
      · rw [Stays, hadds.entryAt?_of_ne hml]
        exact h.late.stays m
    · by_cases hml : m = l
      · subst hml
        obtain ⟨hv, -⟩ | ⟨-, hu⟩ := hl
        · exact absurd hm (by simp [IsFileAt, hv])
        · exact hu
      · rw [IsFileAt, hadds.entryAt?_of_ne hml] at hm
        exact h.late.isFileAt m hm

/-- Names that lead to a directory in the later tree lead there in between, if nothing is
missing. -/
theorem Between.followWithin_directory (h : Between o u w) {n : Nat}
    (hd : u.Leads .target n [] names way d) (hdirectory : u.entryAt? d = some .directory) :
    w.followWithin .target n [] (names ++ [""]) = .ok d ∨
      w.followWithin .target n [] (names ++ [""]) = .error .notFound := by
  obtain ⟨m, hm⟩ := hd.followWithin_append hdirectory
  have hlater := hm .target [""] (by simp) (by simp)
  rw [followWithin_empty] at hlater
  cases hresult : w.followWithin .target n [] (names ++ [""]) with
  | error e =>
    by_cases he : e = .notFound
    · exact .inr (he ▸ rfl)
    · rw [h.late.followWithin_eq_error he hresult] at hlater
      simp at hlater
  | ok d' =>
    obtain ⟨way', hway'⟩ := exists_leads_of_followWithin hresult
    obtain ⟨-, hd'⟩ := h.wellFormed.directory_of_leads hway' (entryAt?_nil w)
    have hsame := (h.late.leads hway' (by simp [hd'])).followWithin_eq
    exact .inl (hsame.symm.trans hlater)

theorem WellFormed.isDirectory_of_last (ht : t.WellFormed) (hcheck : checkPath path = .ok ())
    (hwalked : walked path = names ++ [name]) (hd : t.Leads .target maxLinks [] names way d)
    (hdirectory : t.entryAt? d = some .directory)
    (hlast : ∀ n, t.followWithin .target n d [name] = .ok l) (hl : t.entryAt? l = some .directory) :
    t.isDirectory path := by
  obtain ⟨m, hm⟩ := hd.followWithin_append hdirectory
  obtain ⟨way', hway'⟩ := exists_leads_of_followWithin
    ((hm .target [name] (by simp) (by simp)).trans (hlast m))
  exact ht.isDirectory_of_leads hcheck (hwalked ▸ hway') hl

/-- What is a directory in the later tree can be made in between, or it is there already, or the
directory above is missing. -/
theorem Between.makeDirectory_cases (h : Between o u w) (hu : u.WellFormed)
    (hslash : Path.hasFinalSlash path = false) (hpath : u.isDirectory path)
    (hfirm : IsFirm o u path) :
    (∃ v, w.makeDirectory path = .ok v ∧ Between o u v) ∨ w.isDirectory path ∨
      w.locateParent path = .error .notFound := by
  have hw := h.wellFormed
  obtain ⟨l, hl, hdirectory⟩ := isDirectory_iff.mp hpath
  obtain ⟨hcheck, way, hway⟩ := locate_eq_ok_iff.mp hl
  have hwalked := hu.leads_walked hway
  rcases List.eq_nil_or_concat' (walked path) with hnil | ⟨names, name, hnames⟩
  · have htop : w.Leads .target maxLinks [] (walked path) [] [] := by
      rw [hnil]
      exact .stay
    exact .inr (.inl (hw.isDirectory_of_leads hcheck htop (entryAt?_nil w)))
  rw [hnames] at hwalked
  obtain ⟨way', d, hd, habove⟩ :=
    hu.exists_leads_of_append hwalked (fun _ => hdirectory) (entryAt?_nil u)
  obtain ⟨m, hm⟩ := hd.followWithin_append habove
  have hlast := (hm .target [name] (by simp) (by simp)).symm.trans hwalked.followWithin_eq
  have hparent := locateParent_eq_map (t := w) hcheck
  rw [hnames, List.dropLast_concat, List.getLast?_concat, resolve] at hparent
  rcases h.followWithin_directory hd habove with hmade | hmissing
  swap
  · exact .inr (.inr (by rw [hparent, hmissing]; rfl))
  rw [hmade] at hparent
  obtain ⟨way'', hdw⟩ := exists_leads_of_followWithin hmade
  obtain ⟨hdw, hdw'⟩ := hw.directory_of_leads hdw (entryAt?_nil w)
  have hhere {l : Location} := hw.isDirectory_of_last (l := l) hcheck hnames hdw hdw'
  rcases Path.name_cases name with hidle | rfl | plain
  · refine .inr (.inl (hhere (fun n => ?_) hdw'))
    rw [followWithin_idle hidle, followWithin_nil]
  · refine .inr (.inl (hhere (fun n => ?_) (hw.entryAt?_dropLast hdw')))
    rw [followWithin_up, followWithin_nil]
  -- Only a link could be different, and what is behind it is there from the start.
  by_cases hfind : ∃ entry, o.find path = .ok entry
  · obtain ⟨entry, hentry⟩ := hfind
    exact .inr (.inl (h.isDirectory_of_find hentry hpath))
  obtain ⟨short, -, ⟨-, ends, rfl⟩ | ⟨hentry, hrest⟩ | ⟨target, hlink, -⟩⟩ :=
    of_followWithin_plain plain hlast
  · simp [Ends, hdirectory] at ends
  · cases hvacant : w.entryAt? (d ++ [name]) with
    | some entry =>
      have hthere := h.late.directory_of_later (by simp [hvacant]) hentry
      refine .inr (.inl (hhere (fun n => ?_) hthere))
      rw [followWithin_of_directory plain short (by simp) hthere, followWithin_nil]
    | none =>
      refine .inl ⟨w.put (d ++ [name]) .directory, ?_, h.of_adds (.directory ?_ hvacant) (.inl ?_)⟩
      · have hdots : ¬ (name = "." ∨ name = "..") := by simpa using plain.2
        simp [makeDirectory, hparent, Except.map, bind, Except.bind, hdots, hvacant,
          Nat.not_lt.mpr short]
      · exact locateParent_room hw hparent plain
      · exact ⟨by rw [entryAt?_put w (by simp), if_pos rfl], hentry⟩
  · refine absurd (hfirm (d ++ [name]) target ?_ hlink) hfind
    rw [locate, hcheck, Path.steps_eq, hslash, hnames]
    exact (congrArg _ (List.append_nil _)).trans
      ((hm .entry [name] (by simp) (by simp)).trans (followWithin_entry_of_link plain short hlink))

/-- The directory above a path is not missing if the names before the last one lead to it. -/
theorem locateParent_ne_notFound (hcheck : checkPath path = .ok ())
    (h : (∀ a ∈ walked path, IsIdle a) ∨ ∃ names name way d, walked path = names ++ [name] ∧
      t.Leads .target maxLinks [] names way d ∧ t.entryAt? d = some .directory) :
    t.locateParent path ≠ .error .notFound := by
  rw [locateParent_eq_map hcheck, resolve]
  rcases h with hidle | ⟨names, name, way, d, hnames, hd, hdirectory⟩
  · have hall : ∀ a ∈ (walked path).dropLast ++ [""], IsIdle a := by
      intro a ha
      rcases List.mem_append.mp ha with ha | ha
      · exact hidle a (List.mem_of_mem_dropLast ha)
      · exact .inl (List.mem_singleton.mp ha)
    rw [followWithin_of_forall_isIdle hall]
    simp [Except.map]
  · obtain ⟨m, hm⟩ := hd.followWithin_append hdirectory
    rw [hnames, List.dropLast_concat, hm .target [""] (by simp) (by simp), followWithin_empty]
    simp [Except.map]

/-- **The directories above a path can be made in between**, if they are in the later tree and no
link on the way leads to what is missing from the start. -/
theorem Between.makeDirectories_eq (h : Between o u w) (hu : u.WellFormed)
    (hpath : Path.parent path = "" ∨ u.isDirectory (Path.parent path))
    (hfirm : ∀ p ∈ Path.above path, IsFirm o u p) : ∃ v,
      w.makeDirectories (Path.parent path) = (.ok (), v) ∧ Between o u v ∧
        (Path.parent path = "" ∨ v.isDirectory (Path.parent path)) := by
  induction hn : (Path.above path).length using Nat.strong_induction_on generalizing path with
  | _ n ih =>
    by_cases hempty : Path.parent path = ""
    · exact ⟨w, by rw [makeDirectories, if_pos hempty], h, .inl hempty⟩
    have hdirectory := hpath.resolve_left hempty
    obtain ⟨hslash, hends⟩ := Path.walked_parent_cases path
    rw [Path.above_eq_parent, if_neg hempty] at hn hfirm
    obtain ⟨hfirst, hrest⟩ := List.forall_mem_cons.mp hfirm
    generalize Path.parent path = q at hempty hdirectory hslash hends hn hfirst hrest ⊢
    obtain ⟨l, hl, -⟩ := isDirectory_iff.mp hdirectory
    have hcheck := (locate_eq_ok_iff.mp hl).1
    -- The last attempt, after which the directory is there.
    have hagain {v : FileTree} (hv : Between o u v)
        (hparent : v.locateParent q ≠ .error .notFound) :
        ∃ x, v.makeAgain q = (.ok (), x) ∧ Between o u x ∧ (q = "" ∨ x.isDirectory q) := by
      obtain ⟨x, hx, hbetween⟩ | hthere | hmissing :=
        hv.makeDirectory_cases hu hslash hdirectory hfirst
      · obtain ⟨m, -, -, hm, hmade⟩ := leads_of_makeDirectory hv.wellFormed hx
        exact ⟨x, by rw [makeAgain, hx], hbetween, .inr (isDirectory_iff.mpr ⟨m, hm, hmade⟩)⟩
      · obtain ⟨e, he, -⟩ := hv.wellFormed.exists_makeDirectory_eq_error hthere
        exact ⟨v, by simp [makeAgain, he, hthere], hv, .inr hthere⟩
      · exact absurd hmissing hparent
    rw [makeDirectories_eq_makeAfter hempty]
    by_cases hparent : w.locateParent q = .error .notFound
    · obtain ⟨names, name, hnames, hname⟩ := hends.resolve_left fun hidle =>
        locateParent_ne_notFound hcheck (.inl hidle) hparent
      obtain ⟨v, hv, hbetween, hmade⟩ := ih _ (by rw [← hn, List.length_cons]; omega)
        (hu.isDirectory_parent hl hnames hname) hrest rfl
      obtain ⟨way, d, hd, hd'⟩ :=
        hbetween.wellFormed.leads_of_isDirectory_parent hnames hname hmade
      have hmissing : w.makeDirectory q = .error .notFound := by
        rw [makeDirectory, hparent]
        rfl
      rw [makeAfter_eq, hmissing, hv]
      exact hagain hbetween
        (locateParent_ne_notFound hcheck (.inr ⟨names, name, way, d, hnames, hd, hd'⟩))
    · have hfound : w.makeDirectory q ≠ .error .notFound := by
        intro hmissing
        obtain ⟨x, hx, -⟩ | hthere | hlost :=
          h.makeDirectory_cases hu hslash hdirectory hfirst
        · rw [hx] at hmissing
          simp at hmissing
        · obtain ⟨e, he, hne⟩ := h.wellFormed.exists_makeDirectory_eq_error hthere
          exact hne (Except.error.inj (he.symm.trans hmissing))
        · exact hparent hlost
      rw [makeAfter_eq_makeAgain hfound]
      exact hagain h hparent

/-- A path leads to something from the start, or it leads to its last name in the directory that
the names before lead to. -/
theorem IsFirm.cases (hfirm : IsFirm o u path) (hu : u.WellFormed)
    (hpath : u.locate .target path = .ok l) (hsteps : Path.steps path = names ++ [name])
    (hname : IsName name) :
    (∃ entry, o.find path = .ok entry) ∨ name.utf8ByteSize ≤ maxNameSize ∧ ∃ way d,
      u.Leads .target maxLinks [] names way d ∧ l = d ++ [name] := by
  obtain ⟨hcheck, way, hway⟩ := locate_eq_ok_iff.mp hpath
  rw [hsteps] at hway
  obtain ⟨way', d, hd, hdirectory⟩ := hu.exists_leads_of_append hway (by simp) (entryAt?_nil u)
  obtain ⟨m, hm⟩ := hd.followWithin_append hdirectory
  have hlast := (hm .target [name] (by simp) (by simp)).symm.trans hway.followWithin_eq
  obtain ⟨short, -, ⟨-, -, rfl⟩ | ⟨-, hrest⟩ | ⟨target, hlink, -⟩⟩ :=
    of_followWithin_plain hname.plain hlast
  · exact .inr ⟨short, way', d, hd, rfl⟩
  · obtain rfl := Except.ok.inj (followWithin_nil.symm.trans hrest)
    exact .inr ⟨short, way', d, hd, rfl⟩
  · refine .inl (hfirm (d ++ [name]) target ?_ hlink)
    rw [locate, hcheck, hsteps]
    exact (hm .entry [name] (by simp) (by simp)).trans
      (followWithin_entry_of_link hname.plain short hlink)

/-- **The path of a file leads in between to where it leads in the later tree**, if the directory
above is there. -/
theorem Between.locate_eq (h : Between o u w) (hu : u.WellFormed)
    (hpath : u.locate .target path = .ok l) (hl : u.IsFileAt l)
    (hsteps : Path.steps path = names ++ [name]) (hname : IsName name) (hfirm : IsFirm o u path)
    (hparent : Path.parent path = "" ∨ w.isDirectory (Path.parent path)) :
    w.locate .target path = .ok l ∧ w.entryAt? l ≠ some .directory := by
  obtain ⟨content, modified, hfile⟩ := hl
  have hfree : w.entryAt? l ≠ some .directory := fun hd => by
    have hd' := (h.late.stays l).1 hd
    simp [hfile] at hd'
  refine ⟨?_, hfree⟩
  have hcheck := (locate_eq_ok_iff.mp hpath).1
  obtain ⟨entry, hfind⟩ | ⟨short, way, d, hd, rfl⟩ :=
    hfirm.cases hu hpath hsteps hname
  · obtain ⟨m, hm, hthere⟩ := find_eq_ok_iff.mp hfind
    have hthere : o.entryAt? m ≠ none := by simp [hthere]
    have hw := h.early.locate_eq hm hthere
    obtain rfl := Except.ok.inj
      ((h.late.locate_eq hw (h.early.ne_none hthere)).symm.trans hpath)
    exact hw
  · obtain ⟨way', d', hd', hdirectory⟩ := h.wellFormed.leads_of_isDirectory_parent
      (Path.walked_eq_of_steps hsteps hname.plain.1) hname.not_isIdle hparent
    obtain rfl := (h.late.leads hd' (by simp [hdirectory])).unique hd
    obtain ⟨m, hm⟩ := hd'.followWithin_append hdirectory
    rw [locate, hcheck, hsteps]
    refine (hm .target [name] (by simp) (by simp)).trans ?_
    rw [followWithin_plain hname.plain, if_neg (by simp), if_neg (by omega)]
    cases hw : w.entryAt? (d' ++ [name]) with
    | none => rfl
    | some entry =>
      cases entry with
      | file => rfl
      | directory => exact absurd hw hfree
      | link target =>
        have hlater := (h.late.stays _).2 target hw
        simp [hfile] at hlater

end FileTree

end IdlCompiler
