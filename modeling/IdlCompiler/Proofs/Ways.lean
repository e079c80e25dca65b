/-
# Ways through a file tree

A path leads to a place along a way, which passes directories and links.  `Leads` says by
rules what `followWithin` computes, and lists the places that the way passes.

Main statements: `followWithin_eq_ok_iff`, the rules and the computation agree;
`Leads.mono`, a way stays as long as the directories and links that it passes do;
`followWithin_append`, a way to a directory can be gone first and the rest afterwards; and
`Leads.eq_append`, where no links are the way goes along the names.
-/
import IdlCompiler.FileTree.Basic
import IdlCompiler.Proofs.Paths
import Mathlib.Data.List.Induction

namespace IdlCompiler.FileTree

open IdlCompiler.Path (IsPlain IsName)

variable {t u : FileTree} {purpose : Purpose} {n : Nat} {here l : Location} {name : String}
  {names rest : List String} {way : List Location}

/-- Where a link leads from, by the directory that it stands in. -/
def linkStart (here : Location) (target : String) : Location :=
  if Path.isAbsolute target then [] else here

/-- A way may end at a place if nothing is there that would lead on. -/
def Ends (t : FileTree) (purpose : Purpose) (l : Location) : Prop :=
  match t.entryAt? l with
  | none | some (.file ..) => True
  | some .directory => False
  | some (.link _) => purpose = .entry

/-- Where a way ends that follows links, any way ends. -/
theorem Ends.of_ne_entry {q : Purpose} (h : t.Ends purpose l) (hpurpose : purpose ≠ .entry) :
    t.Ends q l := by
  unfold Ends at h ⊢
  split at h <;> simp_all

/-- From a directory names lead to a place, over at most so many links, and pass these places
on their way. -/
inductive Leads (t : FileTree) (purpose : Purpose) :
    Nat → Location → List String → List Location → Location → Prop
  | stay {n : Nat} {here : Location} : Leads t purpose n here [] [] here
  | idle {n : Nat} {here l : Location} {name : String} {rest : List String} {way : List Location}
      (name_idle : name = "" ∨ name = ".") (on : Leads t purpose n here rest way l) :
      Leads t purpose n here (name :: rest) way l
  | up {n : Nat} {here l : Location} {rest : List String} {way : List Location}
      (on : Leads t purpose n here.dropLast rest way l) :
      Leads t purpose n here (".." :: rest) way l
  | last {n : Nat} {here : Location} {name : String} (plain : IsPlain name)
      (short : name.utf8ByteSize ≤ maxNameSize) (ends : t.Ends purpose (here ++ [name])) :
      Leads t purpose n here [name] [here ++ [name]] (here ++ [name])
  | down {n : Nat} {here l : Location} {name : String} {rest : List String} {way : List Location}
      (plain : IsPlain name) (short : name.utf8ByteSize ≤ maxNameSize)
      (allowed : ¬ (purpose = .making ∧ rest = [""]))
      (directory : t.entryAt? (here ++ [name]) = some .directory)
      (on : Leads t purpose n (here ++ [name]) rest way l) :
      Leads t purpose n here (name :: rest) ((here ++ [name]) :: way) l
  | link {n : Nat} {here l : Location} {name target : String} {rest : List String}
      {way : List Location} (plain : IsPlain name) (short : name.utf8ByteSize ≤ maxNameSize)
      (allowed : ¬ (purpose = .making ∧ rest = [""]))
      (present : t.entryAt? (here ++ [name]) = some (.link target))
      (followed : ¬ (rest = [] ∧ purpose = .entry))
      (on : Leads t purpose n (linkStart here target) (Path.steps target ++ rest) way l) :
      Leads t purpose (n + 1) here (name :: rest) ((here ++ [name]) :: way) l

/-! ## Rules and computation -/

/-- Follows a link from the directory that it stands in, with the names behind it. -/
def followLink (t : FileTree) (purpose : Purpose) :
    Nat → Location → String → List String → Except Error Location
  | 0, _, _, _ => .error .tooManyLinks
  | n + 1, here, target, rest =>
    t.followWithin purpose n (linkStart here target) (Path.steps target ++ rest)

theorem followWithin_eq_follow (t : FileTree) (purpose : Purpose) (n : Nat) :
    t.followWithin purpose n = t.follow purpose (t.followLink purpose n) := by
  cases n <;> rfl

@[simp] theorem followWithin_nil : t.followWithin purpose n here [] = .ok here := by
  rw [followWithin_eq_follow, follow]

theorem followWithin_idle (h : name = "" ∨ name = ".") :
    t.followWithin purpose n here (name :: rest) = t.followWithin purpose n here rest := by
  rw [followWithin_eq_follow, follow, if_pos (by simpa using h)]

theorem followWithin_up : t.followWithin purpose n here (".." :: rest)
    = t.followWithin purpose n here.dropLast rest := by
  rw [followWithin_eq_follow, follow, if_neg (by simp), if_pos rfl]

theorem followWithin_plain (h : IsPlain name) : t.followWithin purpose n here (name :: rest) =
    if purpose = .making && rest = [""] then .error .isADirectory
    else if maxNameSize < name.utf8ByteSize then .error .nameTooLong
    else match t.entryAt? (here ++ [name]) with
      | none => if rest.isEmpty then .ok (here ++ [name]) else .error .notFound
      | some (.file ..) => if rest.isEmpty then .ok (here ++ [name]) else .error .notADirectory
      | some .directory => t.followWithin purpose n (here ++ [name]) rest
      | some (.link target) =>
        if rest.isEmpty && purpose = .entry then .ok (here ++ [name])
        else t.followLink purpose n here target rest := by
  obtain ⟨hempty, hdot, hup⟩ := h
  have hidle : ¬ (name = "" || name = ".") := by simp [hempty, hdot]
  rw [followWithin_eq_follow]
  exact (if_neg hidle).trans (if_neg hup)

/-- The name of a directory leads into it. -/
theorem followWithin_of_directory (plain : IsPlain name) (short : name.utf8ByteSize ≤ maxNameSize)
    (allowed : ¬ (purpose = .making ∧ rest = [""]))
    (directory : t.entryAt? (here ++ [name]) = some .directory) :
    t.followWithin purpose n here (name :: rest) =
      t.followWithin purpose n (here ++ [name]) rest := by
  rw [followWithin_plain plain, if_neg (by simpa using allowed), if_neg (by omega), directory]

/-- The name of a link leads to where the link leads. -/
theorem followWithin_of_link {target : String} (plain : IsPlain name)
    (short : name.utf8ByteSize ≤ maxNameSize) (allowed : ¬ (purpose = .making ∧ rest = [""]))
    (present : t.entryAt? (here ++ [name]) = some (.link target))
    (followed : ¬ (rest = [] ∧ purpose = .entry)) :
    t.followWithin purpose n here (name :: rest) = t.followLink purpose n here target rest := by
  rw [followWithin_plain plain, if_neg (by simpa using allowed), if_neg (by omega), present]
  exact if_neg (by simpa using followed)

/-- A link that is not followed is where its name leads. -/
theorem followWithin_entry_of_link {target : String} (plain : IsPlain name)
    (short : name.utf8ByteSize ≤ maxNameSize)
    (present : t.entryAt? (here ++ [name]) = some (.link target)) :
    t.followWithin .entry n here [name] = .ok (here ++ [name]) := by
  rw [followWithin_plain plain, if_neg (by simp), if_neg (by omega), present]
  rfl

/-- What there is at a name that leads somewhere. -/
theorem of_followWithin_plain (plain : IsPlain name)
    (h : t.followWithin purpose n here (name :: rest) = .ok l) :
    name.utf8ByteSize ≤ maxNameSize ∧ ¬ (purpose = .making ∧ rest = [""]) ∧
      ((rest = [] ∧ t.Ends purpose (here ++ [name]) ∧ l = here ++ [name]) ∨
        (t.entryAt? (here ++ [name]) = some .directory ∧
          t.followWithin purpose n (here ++ [name]) rest = .ok l) ∨
        ∃ target, t.entryAt? (here ++ [name]) = some (.link target) ∧
          ¬ (rest = [] ∧ purpose = .entry) ∧ t.followLink purpose n here target rest = .ok l) := by
  rw [followWithin_plain plain] at h
  by_cases allowed : (purpose = .making && rest = [""]) = true
  · rw [if_pos allowed] at h
    simp at h
  rw [if_neg allowed] at h
  by_cases long : maxNameSize < name.utf8ByteSize
  · rw [if_pos long] at h
    simp at h
  rw [if_neg long] at h
  refine ⟨by omega, by simpa using allowed, ?_⟩
  unfold Ends
  cases hentry : t.entryAt? (here ++ [name]) with
  | none => grind
  | some entry => cases entry <;> grind

theorem Leads.followWithin_eq (h : t.Leads purpose n here names way l) :
    t.followWithin purpose n here names = .ok l := by
  induction h with
  | stay => exact followWithin_nil
  | idle hname _ ih => rw [followWithin_idle hname, ih]
  | up _ ih => rw [followWithin_up, ih]
  | last plain short ends =>
    rw [followWithin_plain plain, if_neg (by simp), if_neg (by omega)]
    unfold Ends at ends
    split at ends <;> simp_all
  | down plain short allowed directory _ ih =>
    rw [followWithin_of_directory plain short allowed directory, ih]
  | link plain short allowed present followed _ ih =>
    rw [followWithin_of_link plain short allowed present followed, followLink, ih]

theorem exists_leads_of_followWithin (h : t.followWithin purpose n here names = .ok l) :
    ∃ way, t.Leads purpose n here names way l := by
  -- The names behind a link are led along after it, over fewer links.
  induction n generalizing here names with
  | zero | succ n ihlinks =>
    induction names generalizing here with
    | nil =>
      obtain rfl := Except.ok.inj (followWithin_nil.symm.trans h)
      exact ⟨[], .stay⟩
    | cons name rest ih =>
      rcases Path.name_cases name with hidle | rfl | plain
      · obtain ⟨way, hway⟩ := ih (followWithin_idle hidle ▸ h)
        exact ⟨way, .idle hidle hway⟩
      · obtain ⟨way, hway⟩ := ih (followWithin_up ▸ h)
        exact ⟨way, .up hway⟩
      · obtain ⟨short, allowed, ⟨rfl, ends, rfl⟩ | ⟨directory, h⟩ |
          ⟨target, present, followed, h⟩⟩ := of_followWithin_plain plain h
        · exact ⟨_, .last plain short ends⟩
        · obtain ⟨way, hway⟩ := ih h
          exact ⟨_, .down plain short allowed directory hway⟩
        · first
          | cases h
          | obtain ⟨way, hway⟩ := ihlinks h
            exact ⟨_, .link plain short allowed present followed hway⟩

theorem followWithin_eq_ok_iff : t.followWithin purpose n here names = .ok l ↔
    ∃ way, t.Leads purpose n here names way l :=
  ⟨exists_leads_of_followWithin, fun ⟨_, h⟩ => h.followWithin_eq⟩

theorem Leads.unique {l' : Location} {way' : List Location}
    (h : t.Leads purpose n here names way l) (h' : t.Leads purpose n here names way' l') :
    l = l' := Except.ok.inj (h.followWithin_eq.symm.trans h'.followWithin_eq)

/-- Names that are followed are not too long. -/
theorem Leads.short (h : t.Leads purpose n here names way l) :
    ∀ a ∈ names, IsPlain a → a.utf8ByteSize ≤ maxNameSize := by
  induction h with
  | stay => simp
  | idle hidle _ ih =>
    refine List.forall_mem_cons.mpr ⟨fun plain => ?_, ih⟩
    rcases hidle with rfl | rfl
    · exact absurd rfl plain.1
    · exact absurd rfl plain.2.1
  | up _ ih => exact List.forall_mem_cons.mpr ⟨fun plain => absurd rfl plain.2.2, ih⟩
  | last _ short => exact List.forall_mem_cons.mpr ⟨fun _ => short, by simp⟩
  | down _ short _ _ _ ih => exact List.forall_mem_cons.mpr ⟨fun _ => short, ih⟩
  | link _ short _ _ _ _ ih =>
    exact List.forall_mem_cons.mpr ⟨fun _ => short, fun a ha => ih a (List.mem_append_right _ ha)⟩

/-! ## Ways in other trees -/

/-- What stands at a place leads on in another tree as it does here. -/
def Stays (t u : FileTree) (l : Location) : Prop :=
  (t.entryAt? l = some .directory → u.entryAt? l = some .directory) ∧
    ∀ target, t.entryAt? l = some (.link target) → u.entryAt? l = some (.link target)

/-- A way is the same in another tree if what it passes stays there. -/
theorem Leads.mono (h : t.Leads purpose n here names way l) (hway : ∀ m ∈ way, t.Stays u m)
    (hend : t.Ends purpose l → u.Ends purpose l) : u.Leads purpose n here names way l := by
  induction h with
  | stay => exact .stay
  | idle hname _ ih => exact .idle hname (ih hway hend)
  | up _ ih => exact .up (ih hway hend)
  | last plain short ends => exact .last plain short (hend ends)
  | down plain short allowed directory _ ih =>
    obtain ⟨hfirst, hrest⟩ := List.forall_mem_cons.mp hway
    exact .down plain short allowed (hfirst.1 directory) (ih hrest hend)
  | link plain short allowed present followed _ ih =>
    obtain ⟨hfirst, hrest⟩ := List.forall_mem_cons.mp hway
    exact .link plain short allowed (hfirst.2 _ present) followed (ih hrest hend)

/-- A way passes directories and links only, apart from its end. -/
theorem Leads.eq_or_leadsOn_of_mem (h : t.Leads purpose n here names way l) {m : Location}
    (hm : m ∈ way) : m = l ∨ t.entryAt? m = some .directory ∨
      ∃ target, t.entryAt? m = some (.link target) := by
  induction h with
  | stay => simp at hm
  | idle _ _ ih | up _ ih => exact ih hm
  | last => exact .inl (List.mem_singleton.mp hm)
  | down _ _ _ directory _ ih =>
    rcases List.mem_cons.mp hm with rfl | hm
    · exact .inr (.inl directory)
    · exact ih hm
  | link _ _ _ present _ _ ih =>
    rcases List.mem_cons.mp hm with rfl | hm
    · exact .inr (.inr ⟨_, present⟩)
    · exact ih hm

theorem Leads.target_of_making (h : t.Leads .making n here names way l) :
    t.Leads .target n here names way l := by
  induction h with
  | stay => exact .stay
  | idle hname _ ih => exact .idle hname ih
  | up _ ih => exact .up ih
  | last plain short ends => exact .last plain short (ends.of_ne_entry (by simp))
  | down plain short _ directory _ ih => exact .down plain short (by simp) directory ih
  | link plain short _ present _ _ ih => exact .link plain short (by simp) present (by simp) ih

/-! ## Ways in parts -/

/-- A way to a directory can be gone first, and what follows it afterwards. -/
theorem Leads.followWithin_append (h : t.Leads .target n here names way l)
    (hl : t.entryAt? l = some .directory) : ∃ m, ∀ (q : Purpose) (rest : List String),
      rest ≠ [] → (q = .making → rest ≠ [""]) →
        t.followWithin q n here (names ++ rest) = t.followWithin q m l rest := by
  induction h with
  | stay => exact ⟨_, fun q rest _ _ => rfl⟩
  | idle hname _ ih =>
    obtain ⟨m, hm⟩ := ih hl
    exact ⟨m, fun q rest hne hmaking => by
      rw [List.cons_append, followWithin_idle hname, hm q rest hne hmaking]⟩
  | up _ ih =>
    obtain ⟨m, hm⟩ := ih hl
    exact ⟨m, fun q rest hne hmaking => by
      rw [List.cons_append, followWithin_up, hm q rest hne hmaking]⟩
  | last plain short ends => simp [Ends, hl] at ends
  | @down _ _ _ _ names _ plain short _ directory _ ih =>
    obtain ⟨m, hm⟩ := ih hl
    refine ⟨m, fun q rest hne hmaking => ?_⟩
    have hallowed : ¬ (q = .making ∧ names ++ rest = [""]) := by
      cases names <;> simp_all
    rw [List.cons_append, followWithin_of_directory plain short hallowed directory]
    exact hm q rest hne hmaking
  | @link _ _ _ _ target names _ plain short _ present _ _ ih =>
    obtain ⟨m, hm⟩ := ih hl
    refine ⟨m, fun q rest hne hmaking => ?_⟩
    have hallowed : ¬ (q = .making ∧ names ++ rest = [""]) := by
      cases names <;> simp_all
    rw [List.cons_append, followWithin_of_link plain short hallowed present (by simp [hne]),
      followLink, ← List.append_assoc]
    exact hm q rest hne hmaking

/-- A way to a directory goes on with the directories in it. -/
theorem Leads.followWithin_append_cons (h : t.Leads .target n here names way l)
    (hl : t.entryAt? l = some .directory) (plain : IsPlain name)
    (short : name.utf8ByteSize ≤ maxNameSize)
    (directory : t.entryAt? (l ++ [name]) = some .directory) :
    ∃ m, ∀ (q : Purpose) (rest : List String), (q = .making → rest ≠ [""]) →
      t.followWithin q n here (names ++ name :: rest)
        = t.followWithin q m (l ++ [name]) rest := by
  obtain ⟨m, hm⟩ := h.followWithin_append hl
  refine ⟨m, fun q rest hmaking => ?_⟩
  rw [hm q _ (List.cons_ne_nil _ _) (fun _ heq => plain.1 (List.cons.inj heq).1),
    followWithin_of_directory plain short (by simpa using hmaking) directory]

/-- A way down goes along its names as long as it follows no link. -/
theorem Leads.eq_append_of_not_followed (h : t.Leads purpose n here names way l)
    (hnames : ∀ a ∈ names, IsPlain a)
    (hlinks : ∀ front name rest target, names = front ++ name :: rest →
      t.entryAt? (here ++ (front ++ [name])) = some (.link target) →
        rest = [] ∧ purpose = .entry) : l = here ++ names := by
  induction h with
  | stay => exact (List.append_nil _).symm
  | idle hidle => exact absurd hidle (by simp [(hnames _ List.mem_cons_self).1,
      (hnames _ List.mem_cons_self).2.1])
  | up => exact absurd rfl (hnames _ List.mem_cons_self).2.2
  | last => rfl
  | @down _ _ _ first _ _ _ _ _ _ _ ih =>
    rw [ih (fun a ha => hnames a (List.mem_cons_of_mem _ ha)) fun front name rest target hrest hm =>
      hlinks (first :: front) name rest target (by rw [hrest]; rfl) (by simpa using hm),
      List.append_assoc]
    rfl
  | link _ _ _ present followed => exact absurd (hlinks [] _ _ _ rfl present) followed

/-- Where there are no links, a way down goes along its names. -/
theorem Leads.eq_append (h : t.Leads purpose n here names way l) (hnames : ∀ a ∈ names, IsPlain a)
    (hlinks : ∀ m target, here <+: m → t.entryAt? m ≠ some (.link target)) :
    l = here ++ names :=
  h.eq_append_of_not_followed hnames fun _ _ _ target _ hm =>
    absurd hm (hlinks _ target (List.prefix_append ..))

/-- A name that nothing refers to leads nowhere: a way that starts elsewhere does not come to
the entry with this name, nor to what is below it. -/
theorem Leads.not_below {d : Location} (h : t.Leads purpose n here names way l)
    (hhere : ¬ d ++ [name] <+: here) (hnames : name ∉ names)
    (hlinks : ∀ m target, t.entryAt? m = some (.link target) → name ∉ Path.steps target) :
    ¬ d ++ [name] <+: l ∧ ∀ m ∈ way, ¬ d ++ [name] <+: m := by
  -- One step down comes to the entry itself if it comes to anything at or below it.
  have hstep {here : Location} {a : String} (hhere : ¬ d ++ [name] <+: here) (ha : name ≠ a) :
      ¬ d ++ [name] <+: here ++ [a] := by
    rw [List.prefix_concat_iff, not_or]
    exact ⟨fun heq => ha (List.append_singleton_inj.mp heq).2, hhere⟩
  induction h with
  | stay => exact ⟨hhere, by simp⟩
  | idle _ _ ih => exact ih hhere fun hmem => hnames (List.mem_cons_of_mem _ hmem)
  | up _ ih =>
    exact ih (fun hup => hhere (hup.trans ( List.dropLast_prefix _))) fun hmem =>
      hnames (List.mem_cons_of_mem _ hmem)
  | last =>
    have hfirst := hstep hhere (by simpa using hnames)
    exact ⟨hfirst, by simpa using hfirst⟩
  | down _ _ _ _ _ ih =>
    obtain ⟨hname, hrest⟩ := not_or.mp (List.mem_cons.not.mp hnames)
    have hfirst := hstep hhere hname
    obtain ⟨hl, hway⟩ := ih hfirst hrest
    exact ⟨hl, List.forall_mem_cons.mpr ⟨hfirst, hway⟩⟩
  | @link _ here _ _ target _ _ _ _ _ present _ _ ih =>
    obtain ⟨hname, hrest⟩ := not_or.mp (List.mem_cons.not.mp hnames)
    have hstart : ¬ d ++ [name] <+: linkStart here target := by
      unfold linkStart
      split
      · simp
      · exact hhere
    obtain ⟨hl, hway⟩ := ih hstart fun hmem =>
      (List.mem_append.mp hmem).elim (hlinks _ _ present) hrest
    exact ⟨hl, List.forall_mem_cons.mpr ⟨hstep hhere hname, hway⟩⟩

/-! ## Trees -/

/-- Every entry of a tree stands in a directory and has a name. -/
structure WellFormed (t : FileTree) : Prop where
  parent : ∀ l name entry, t.entryAt? (l ++ [name]) = some entry → t.entryAt? l = some .directory
  isName : ∀ l name entry, t.entryAt? (l ++ [name]) = some entry → IsName name

/-- Nothing is below what is no directory. -/
theorem WellFormed.eq_of_isPrefix (ht : t.WellFormed) {m : Location} {entry : Entry}
    (hl : t.entryAt? l ≠ some .directory) (hm : t.entryAt? m = some entry) (h : l <+: m) :
    m = l := by
  obtain ⟨names, rfl⟩ := h
  induction names using List.reverseRecOn generalizing entry with
  | nil => exact List.append_nil _
  | append_singleton names name ih =>
    rw [← List.append_assoc] at hm
    have hparent := ht.parent _ _ _ hm
    rw [ih hparent] at hparent
    exact absurd hparent hl

theorem WellFormed.entryAt?_dropLast (ht : t.WellFormed) (h : t.entryAt? l = some .directory) :
    t.entryAt? l.dropLast = some .directory := by
  rcases List.eq_nil_or_concat' l with rfl | ⟨d, name, rfl⟩
  · exact entryAt?_nil t
  · rw [List.dropLast_concat]
    exact ht.parent _ _ _ h

theorem entryAt?_linkStart {target : String} (h : t.entryAt? here = some .directory) :
    t.entryAt? (linkStart here target) = some .directory := by
  unfold linkStart
  split
  · exact entryAt?_nil t
  · exact h

theorem isDirectoryAt_iff : t.isDirectoryAt l ↔ t.entryAt? l = some .directory := by
  rw [isDirectoryAt]
  cases t.entryAt? l with
  | none => simp
  | some entry => cases entry <;> simp [Entry.isDirectory]

/-- An entry can stand at a place: the place is in a directory, and its last name is one that
entries have. -/
def HasRoom (t : FileTree) (l : Location) : Prop :=
  ∃ d name, l = d ++ [name] ∧ IsName name ∧ t.entryAt? d = some .directory

theorem hasRoom_iff : t.HasRoom l ↔
    l ≠ [] ∧ (∀ name ∈ l.getLast?, IsName name) ∧ t.isDirectoryAt l.dropLast := by
  rcases List.eq_nil_or_concat' l with rfl | ⟨d, name, rfl⟩
  · simp [HasRoom]
  · simp [HasRoom, isDirectoryAt_iff]

instance (t : FileTree) : DecidablePred t.HasRoom := fun _ => decidable_of_iff _ hasRoom_iff.symm

/-- A way ends at a directory, or in one. -/
theorem WellFormed.of_leads (ht : t.WellFormed) (h : t.Leads purpose n here names way l)
    (hnames : ∀ a ∈ names, '/' ∉ a.toList) (hhere : t.entryAt? here = some .directory) :
    t.entryAt? l = some .directory ∨ t.HasRoom l ∧ t.Ends purpose l := by
  induction h with
  | stay => exact .inl hhere
  | idle _ _ ih => exact ih (fun a ha => hnames a (List.mem_cons_of_mem _ ha)) hhere
  | up _ ih =>
    exact ih (fun a ha => hnames a (List.mem_cons_of_mem _ ha)) (ht.entryAt?_dropLast hhere)
  | last plain _ ends =>
    exact .inr ⟨⟨_, _, rfl, ⟨plain, hnames _ List.mem_cons_self⟩, hhere⟩, ends⟩
  | down _ _ _ directory _ ih =>
    exact ih (fun a ha => hnames a (List.mem_cons_of_mem _ ha)) directory
  | link _ _ _ _ _ _ ih =>
    refine ih (fun a ha => ?_) (entryAt?_linkStart hhere)
    rcases List.mem_append.mp ha with ha | ha
    · exact Path.noSlash_of_mem_steps ha
    · exact hnames a (List.mem_cons_of_mem _ ha)

/-- The first names of a way lead to a directory if more names follow, or if the way does. -/
theorem WellFormed.exists_leads_of_append (ht : t.WellFormed) {behind : List String}
    (h : t.Leads .target n here (names ++ behind) way l)
    (hl : behind = [] → t.entryAt? l = some .directory)
    (hhere : t.entryAt? here = some .directory) :
    ∃ way m, t.Leads .target n here names way m ∧ t.entryAt? m = some .directory := by
  generalize hall : names ++ behind = all at h
  induction h generalizing names with
  | stay =>
    obtain ⟨rfl, -⟩ := List.append_eq_nil_iff.mp hall
    exact ⟨[], _, .stay, hhere⟩
  | idle hidle _ ih =>
    rcases List.append_eq_cons_iff.mp hall with ⟨rfl, -⟩ | ⟨names, rfl, hrest⟩
    · exact ⟨[], _, .stay, hhere⟩
    · obtain ⟨way, m, hon, hm⟩ := ih hl hhere hrest.symm
      exact ⟨way, m, .idle hidle hon, hm⟩
  | up _ ih =>
    rcases List.append_eq_cons_iff.mp hall with ⟨rfl, -⟩ | ⟨names, rfl, hrest⟩
    · exact ⟨[], _, .stay, hhere⟩
    · obtain ⟨way, m, hon, hm⟩ := ih hl (ht.entryAt?_dropLast hhere) hrest.symm
      exact ⟨way, m, .up hon, hm⟩
  | last _ _ ends =>
    rcases List.append_eq_cons_iff.mp hall with ⟨rfl, -⟩ | ⟨names, rfl, hrest⟩
    · exact ⟨[], _, .stay, hhere⟩
    · simp [Ends, hl (List.append_eq_nil_iff.mp hrest.symm).2] at ends
  | down plain short _ directory _ ih =>
    rcases List.append_eq_cons_iff.mp hall with ⟨rfl, -⟩ | ⟨names, rfl, hrest⟩
    · exact ⟨[], _, .stay, hhere⟩
    · obtain ⟨way, m, hon, hm⟩ := ih hl directory hrest.symm
      exact ⟨_, m, .down plain short (by simp) directory hon, hm⟩
  | link plain short _ present _ _ ih =>
    rcases List.append_eq_cons_iff.mp hall with ⟨rfl, -⟩ | ⟨names, rfl, rfl⟩
    · exact ⟨[], _, .stay, hhere⟩
    · obtain ⟨way, m, hon, hm⟩ := ih hl (entryAt?_linkStart hhere) (List.append_assoc ..)
      exact ⟨_, m, .link plain short (by simp) present (by simp) hon, hm⟩

theorem exists_eq_cons_of_append_empty (h : names ++ [""] = name :: rest) (plain : IsPlain name) :
    ∃ behind, names = name :: behind ∧ behind ++ [""] = rest := by
  cases names with
  | nil => exact absurd (List.cons.inj h).1.symm plain.1
  | cons a behind =>
    obtain ⟨rfl, rfl⟩ := List.cons.inj h
    exact ⟨behind, rfl, rfl⟩

/-- A way with a slash at its end leads to a directory. -/
theorem WellFormed.directory_of_leads (ht : t.WellFormed)
    (h : t.Leads .target n here (names ++ [""]) way l)
    (hhere : t.entryAt? here = some .directory) :
    t.Leads .target n here names way l ∧ t.entryAt? l = some .directory := by
  generalize hall : names ++ [""] = all at h
  induction h generalizing names with
  | stay => simp at hall
  | idle hidle hon ih =>
    cases names with
    | nil =>
      obtain ⟨-, rfl⟩ := List.cons.inj hall
      cases hon
      exact ⟨.stay, hhere⟩
    | cons a names =>
      obtain ⟨rfl, rfl⟩ := List.cons.inj hall
      exact ⟨.idle hidle (ih hhere rfl).1, (ih hhere rfl).2⟩
  | up hon ih =>
    cases names with
    | nil => simp at hall
    | cons a names =>
      obtain ⟨rfl, rfl⟩ := List.cons.inj hall
      have hup := ih (ht.entryAt?_dropLast hhere) rfl
      exact ⟨.up hup.1, hup.2⟩
  | last plain =>
    obtain ⟨behind, -, hbehind⟩ := exists_eq_cons_of_append_empty hall plain
    simp at hbehind
  | down plain short _ directory _ ih =>
    obtain ⟨behind, rfl, hbehind⟩ := exists_eq_cons_of_append_empty hall plain
    exact ⟨.down plain short (by simp) directory (ih directory hbehind).1,
      (ih directory hbehind).2⟩
  | link plain short _ present _ _ ih =>
    obtain ⟨behind, rfl, rfl⟩ := exists_eq_cons_of_append_empty hall plain
    obtain ⟨hon, hl⟩ := ih (entryAt?_linkStart hhere) (List.append_assoc ..)
    exact ⟨.link plain short (by simp) present (by simp) hon, hl⟩

end IdlCompiler.FileTree
