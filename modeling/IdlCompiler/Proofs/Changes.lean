/-
# Changes of a file tree

Whatever is asked of a file tree, it changes by storing and removing one entry after the
other.  `Adds` and `Takes` are the two kinds of steps; no step makes a link, so that links
are the same in all trees that come from one tree, as long as they are there.

Main statements: `writeFile_adds`, `makeDirectories_steps`, `removeFile_takes` and
`removeDirectory_takes`, what the operations do, and `changes_of_does`, what any piece of work does.
-/
import IdlCompiler.Proofs.Effects
import IdlCompiler.Proofs.Ways
import Mathlib.Logic.Relation

namespace IdlCompiler.FileTree

open IdlCompiler.Path (IsPlain IsName walked)
open Relation (ReflTransGen)

variable {t u v : FileTree} {l m : Location} {area : Location → Prop} {path : String}

/-! ## Steps -/

/-- A file stands at a place. -/
def IsFileAt (t : FileTree) (l : Location) : Prop :=
  ∃ content modified, t.entryAt? l = some (.file content modified)

/-- Nothing stands at a place, or a file does. -/
def IsFree (t : FileTree) (l : Location) : Prop := t.entryAt? l = none ∨ t.IsFileAt l

/-- A tree is another one with a new directory or with a file written. -/
inductive Adds (t : FileTree) (l : Location) : FileTree → Prop
  | file (content : ByteArray) (modified : Nat) (room : t.HasRoom l) (free : t.IsFree l) :
      Adds t l (t.put l (.file content modified))
  | directory (room : t.HasRoom l) (vacant : t.entryAt? l = none) : Adds t l (t.put l .directory)

/-- A tree is another one without an entry that has nothing below it. -/
inductive Takes (t : FileTree) (l : Location) : FileTree → Prop
  | entry (not_top : l ≠ []) (bare : ∀ m, l <+: m → m ≠ l → t.entryAt? m = none) :
      Takes t l (t.erase l)

/-- A tree comes from another one by additions in an area. -/
def Grows (area : Location → Prop) : FileTree → FileTree → Prop :=
  ReflTransGen fun t u => ∃ l, area l ∧ t.Adds l u

/-- A tree comes from another one by removals in an area. -/
def Shrinks (area : Location → Prop) : FileTree → FileTree → Prop :=
  ReflTransGen fun t u => ∃ l, area l ∧ t.Takes l u

/-- A tree comes from another one by additions and removals. -/
def Changes : FileTree → FileTree → Prop :=
  ReflTransGen fun t u => ∃ l, t.Adds l u ∨ t.Takes l u

theorem HasRoom.ne_nil (h : t.HasRoom l) : l ≠ [] := by
  obtain ⟨d, name, rfl, -⟩ := h
  simp

theorem Adds.exists_eq_put (h : t.Adds l u) : t.HasRoom l ∧ t.IsFree l ∧
    ∃ entry, u = t.put l entry ∧ ∀ target, entry ≠ .link target := by
  cases h with
  | file content modified room free => exact ⟨room, free, _, rfl, by simp⟩
  | directory room vacant => exact ⟨room, .inl vacant, _, rfl, by simp⟩

theorem Adds.entryAt?_of_ne (h : t.Adds l u) (hm : m ≠ l) : u.entryAt? m = t.entryAt? m := by
  obtain ⟨room, -, entry, rfl, -⟩ := h.exists_eq_put
  rw [entryAt?_put t room.ne_nil, if_neg hm]

theorem Takes.entryAt? (h : t.Takes l u) :
    u.entryAt? m = if m = l then none else t.entryAt? m := by
  obtain ⟨not_top, -⟩ := h
  exact entryAt?_erase t not_top

theorem Adds.stays (h : t.Adds l u) (m : Location) : t.Stays u m := by
  obtain ⟨-, free, -⟩ := h.exists_eq_put
  by_cases hm : m = l
  · subst hm
    rcases free with free | ⟨content, modified, free⟩ <;> simp [Stays, free]
  · simp [Stays, h.entryAt?_of_ne hm]

/-- An addition makes no link. -/
theorem Adds.link (h : t.Adds l u) {target : String} (hm : u.entryAt? m = some (.link target)) :
    t.entryAt? m = some (.link target) := by
  obtain ⟨room, -, entry, rfl, hentry⟩ := h.exists_eq_put
  rw [entryAt?_put t room.ne_nil] at hm
  split at hm
  · exact absurd (Option.some.inj hm) (hentry target)
  · exact hm

theorem Takes.of_entryAt? (h : t.Takes l u) {entry : Entry} (hm : u.entryAt? m = some entry) :
    t.entryAt? m = some entry := by
  rw [h.entryAt?] at hm
  split at hm
  · simp at hm
  · exact hm

theorem Adds.wellFormed (ht : t.WellFormed) (h : t.Adds l u) : u.WellFormed := by
  obtain ⟨⟨d, name, rfl, hname, hd⟩, -⟩ := h.exists_eq_put
  have hold {m : Location} {a : String} {entry : Entry} (hm : u.entryAt? (m ++ [a]) = some entry) :
      t.entryAt? m = some .directory ∧ IsName a := by
    by_cases heq : m ++ [a] = d ++ [name]
    · obtain ⟨rfl, rfl⟩ := List.append_singleton_inj.mp heq
      exact ⟨hd, hname⟩
    · rw [h.entryAt?_of_ne heq] at hm
      exact ⟨ht.parent _ _ _ hm, ht.isName _ _ _ hm⟩
  exact ⟨fun m a entry hm => (h.stays m).1 (hold hm).1, fun m a entry hm => (hold hm).2⟩

theorem Takes.wellFormed (ht : t.WellFormed) (h : t.Takes l u) : u.WellFormed := by
  refine ⟨fun m a entry hm => ?_, fun m a entry hm => ht.isName _ _ _ (h.of_entryAt? hm)⟩
  rw [h.entryAt?]
  have hentry := h.of_entryAt? hm
  by_cases heq : m = l
  · obtain ⟨-, bare⟩ := h
    rw [bare _ (heq ▸ List.prefix_append ..) (by simp [heq])] at hentry
    simp at hentry
  · rw [if_neg heq]
    exact ht.parent _ _ _ hentry

/-! ## Rows of steps -/

/-- Links are those of an earlier tree. -/
def HasLinksOf (u t : FileTree) : Prop :=
  ∀ m target, u.entryAt? m = some (.link target) → t.entryAt? m = some (.link target)

theorem Changes.wellFormed (ht : t.WellFormed) (h : Changes t u) : u.WellFormed := by
  induction h with
  | refl => exact ht
  | tail _ step ih =>
    obtain ⟨l, hadds | htakes⟩ := step
    · exact hadds.wellFormed ih
    · exact htakes.wellFormed ih

theorem Changes.hasLinksOf (h : Changes t u) : u.HasLinksOf t := by
  induction h with
  | refl => exact fun _ _ h => h
  | tail _ step ih =>
    obtain ⟨l, hadds | htakes⟩ := step
    · exact fun m target hm => ih m target (hadds.link hm)
    · exact fun m target hm => ih m target (htakes.of_entryAt? hm)

theorem Grows.mono {area' : Location → Prop} (h : Grows area t u) (himp : ∀ l, area l → area' l) :
    Grows area' t u :=
  h.lift id fun _ _ ⟨l, hl, hadds⟩ => ⟨l, himp l hl, hadds⟩

theorem Grows.changes (h : Grows area t u) : Changes t u :=
  h.lift id fun _ _ ⟨l, _, hl⟩ => ⟨l, .inl hl⟩

theorem Shrinks.changes (h : Shrinks area t u) : Changes t u :=
  h.lift id fun _ _ ⟨l, _, hl⟩ => ⟨l, .inr hl⟩

theorem Grows.stays (h : Grows area t u) (m : Location) : t.Stays u m := by
  induction h with
  | refl => exact ⟨id, fun _ => id⟩
  | tail _ step ih =>
    obtain ⟨l, -, hl⟩ := step
    exact ⟨fun hm => (hl.stays m).1 (ih.1 hm), fun target hm => (hl.stays m).2 _ (ih.2 _ hm)⟩

theorem Grows.entryAt?_eq (h : Grows area t u) (hm : ¬ area m) :
    u.entryAt? m = t.entryAt? m := by
  induction h with
  | refl => rfl
  | tail _ step ih =>
    obtain ⟨l, harea, hl⟩ := step
    rw [hl.entryAt?_of_ne (by rintro rfl; exact hm harea), ih]

theorem Adds.isFileAt (h : t.Adds l u) (hm : t.IsFileAt m) : u.IsFileAt m := by
  obtain ⟨content, modified, hentry⟩ := hm
  by_cases heq : m = l
  · subst heq
    cases h with
    | file content modified room =>
      exact ⟨content, modified, by rw [entryAt?_put t room.ne_nil, if_pos rfl]⟩
    | directory _ vacant => simp [vacant] at hentry
  · exact ⟨content, modified, (h.entryAt?_of_ne heq).trans hentry⟩

theorem Grows.isFileAt (h : Grows area t u) (hm : t.IsFileAt m) : u.IsFileAt m := by
  induction h with
  | refl => exact hm
  | tail _ step ih =>
    obtain ⟨l, -, hl⟩ := step
    exact hl.isFileAt ih

/-- What is there stays there when something is added. -/
theorem Adds.ne_none (h : t.Adds l u) (hm : t.entryAt? m ≠ none) : u.entryAt? m ≠ none := by
  obtain ⟨room, -, entry, rfl, -⟩ := h.exists_eq_put
  rw [entryAt?_put t room.ne_nil]
  split <;> simp [*]

theorem Grows.ne_none (h : Grows area t u) (hm : t.entryAt? m ≠ none) : u.entryAt? m ≠ none := by
  induction h with
  | refl => exact hm
  | tail _ step ih =>
    obtain ⟨l, -, hl⟩ := step
    exact hl.ne_none ih

theorem Shrinks.entryAt?_eq (h : Shrinks area t u) (hm : ¬ area m) :
    u.entryAt? m = t.entryAt? m := by
  induction h with
  | refl => rfl
  | tail _ step ih =>
    obtain ⟨l, harea, hl⟩ := step
    rw [hl.entryAt?, if_neg (by rintro rfl; exact hm harea), ih]

theorem Shrinks.of_entryAt? (h : Shrinks area t u) {entry : Entry}
    (hm : u.entryAt? m = some entry) : t.entryAt? m = some entry := by
  induction h with
  | refl => exact hm
  | tail _ step ih =>
    obtain ⟨l, -, hl⟩ := step
    exact ih (hl.of_entryAt? hm)

/-! ## Operations -/

theorem locate_eq_ok_iff {purpose : Purpose} : t.locate purpose path = .ok l ↔
    checkPath path = .ok () ∧ ∃ way, t.Leads purpose maxLinks [] (Path.steps path) way l := by
  rw [locate, resolve]
  cases checkPath path with
  | error e => simp [bind, Except.bind]
  | ok => simpa [bind, Except.bind] using followWithin_eq_ok_iff

/-- A path to a file leads there in all later trees. -/
theorem Grows.locate_eq (h : Grows area t u) (hpath : t.locate .target path = .ok l)
    (hl : t.IsFileAt l) : u.locate .target path = .ok l := by
  obtain ⟨hcheck, way, hway⟩ := locate_eq_ok_iff.mp hpath
  obtain ⟨content, modified, hentry⟩ := h.isFileAt hl
  exact locate_eq_ok_iff.mpr ⟨hcheck, way,
    hway.mono (fun m _ => h.stays m) fun _ => by simp [Ends, hentry]⟩

theorem locateParent_eq_ok_iff {above : Location} {name? : Option String} :
    t.locateParent path = .ok (above, name?) ↔ checkPath path = .ok () ∧
      (∃ way, t.Leads .target maxLinks [] ((walked path).dropLast ++ [""]) way above) ∧
      name? = (walked path).getLast? := by
  rw [locateParent, ← walked]
  cases checkPath path with
  | error e => simp [bind, Except.bind]
  | ok =>
    simp only [bind, Except.bind, ← followWithin_eq_ok_iff, resolve, pure, Except.pure]
    cases t.followWithin .target maxLinks [] ((walked path).dropLast ++ [""]) with
    | error e => simp
    | ok m => simp [eq_comm]

theorem writeFile_adds (ht : t.WellFormed) {content : ByteArray}
    (h : t.writeFile path content = .ok u) : ∃ l, t.locate .making path = .ok l ∧
      t.Adds l u ∧ u = t.put l (.file content t.now) := by
  obtain ⟨l, hl, h⟩ := Except.bind_eq_ok_iff.mp h
  obtain ⟨-, way, hway⟩ := locate_eq_ok_iff.mp hl
  rcases ht.of_leads hway (fun a => Path.noSlash_of_mem_steps) (entryAt?_nil t) with
    hdirectory | ⟨room, ends⟩
  · simp [hdirectory] at h
  · have free : t.IsFree l := by
      unfold Ends at ends
      unfold IsFree IsFileAt
      split at ends <;> simp_all
    have hu : u = t.put l (.file content t.now) := by
      rcases free with free | ⟨_, _, free⟩ <;> simpa [free, eq_comm] using h
    exact ⟨l, hl, hu ▸ .file _ _ room free, hu⟩

theorem locateParent_room (ht : t.WellFormed) {above : Location} {name : String}
    (h : t.locateParent path = .ok (above, some name)) (plain : IsPlain name) :
    t.HasRoom (above ++ [name]) := by
  obtain ⟨-, ⟨way, hway⟩, hname⟩ := locateParent_eq_ok_iff.mp h
  exact ⟨above, name, rfl,
    Path.isName_of_mem_walked (List.mem_of_getLast? hname.symm) plain.2.1 plain.2.2,
    (ht.directory_of_leads hway (entryAt?_nil t)).2⟩

theorem ne_empty_of_locateParent {above : Location} {name : String}
    (h : t.locateParent path = .ok (above, some name)) : name ≠ "" :=
  (Path.ne_empty_and_noSlash_of_mem_walked
    (List.mem_of_getLast? (locateParent_eq_ok_iff.mp h).2.2.symm)).1

theorem makeDirectory_adds (ht : t.WellFormed) (h : t.makeDirectory path = .ok u) :
    ∃ above name, t.locateParent path = .ok (above, some name) ∧ IsPlain name ∧
      name.utf8ByteSize ≤ maxNameSize ∧ t.entryAt? (above ++ [name]) = none ∧
      t.Adds (above ++ [name]) u ∧ u = t.put (above ++ [name]) .directory := by
  obtain ⟨⟨above, _ | name⟩, hparent, h⟩ := Except.bind_eq_ok_iff.mp h
  · simp at h
  dsimp only at h
  split at h
  · simp at h
  rename_i hname
  have plain : IsPlain name := ⟨ne_empty_of_locateParent hparent, by simpa using hname⟩
  split at h
  · simp at h
  rename_i hshort
  split at h
  · simp at h
  rename_i vacant
  have hu := (Except.ok.inj h).symm
  exact ⟨above, name, hparent, plain, by omega, vacant,
    hu ▸ .directory (locateParent_room ht hparent plain) vacant, hu⟩

theorem makeAfter_steps {P : FileTree → FileTree → Prop}
    (hmake : ∀ u v, u.makeDirectory path = .ok v → P u v)
    {above : Unit → Except Error Unit × FileTree} (habove : ReflTransGen P t (above ()).2) :
    ReflTransGen P t (t.makeAfter path above).2 := by
  unfold makeAfter
  dsimp only
  split
  · split
    · rename_i v heq
      rw [heq] at habove
      cases h : v.makeDirectory path with
      | ok w => exact habove.tail (hmake v w h)
      | error e => exact habove
    · exact habove
  · cases h : t.makeDirectory path with
    | ok v => exact .single (hmake t v h)
    | error e => exact .refl

theorem makeWithAbove_steps {P : FileTree → FileTree → Prop} (above : List String)
    (hmake : ∀ p ∈ path :: above, ∀ u v, u.makeDirectory p = .ok v → P u v) :
    ReflTransGen P t (t.makeWithAbove above path).2 := by
  induction above generalizing path with
  | nil => exact makeAfter_steps (hmake path (by simp)) .refl
  | cons next rest ih =>
    exact makeAfter_steps (hmake path (by simp)) (ih fun p hp => hmake p (by simp_all))

/-- Making directories is making single directories, each at the path or at one above it. -/
theorem makeDirectories_steps (t : FileTree) (path : String) :
    ReflTransGen (fun u v => ∃ p ∈ path :: Path.above path, u.makeDirectory p = .ok v) t
      (t.makeDirectories path).2 := by
  unfold makeDirectories
  split
  · exact .refl
  · exact makeWithAbove_steps _ fun p hp u v h => ⟨p, hp, h⟩

/-- A directory that was made is where its path leads. -/
theorem leads_of_makeDirectory (ht : t.WellFormed) (h : t.makeDirectory path = .ok u) :
    ∃ l, t.entryAt? l = none ∧ t.Adds l u ∧ u.locate .target path = .ok l ∧
      u.entryAt? l = some .directory := by
  obtain ⟨above, name, hparent, plain, short, vacant, hadds, hu⟩ := makeDirectory_adds ht h
  obtain ⟨hcheck, ⟨way, hway⟩, hname⟩ := locateParent_eq_ok_iff.mp hparent
  obtain ⟨hway, habove⟩ := ht.directory_of_leads hway (entryAt?_nil t)
  have hu' : u.entryAt? (above ++ [name]) = some .directory := by
    rw [hu, entryAt?_put t (by simp), if_pos rfl]
  have hway' := hway.mono (fun m _ => hadds.stays m) fun ends => by simp [Ends, habove] at ends
  obtain ⟨m, hm⟩ := hway'.followWithin_append_cons ((hadds.stays above).1 habove) plain short hu'
  have hwalked : walked path = (walked path).dropLast ++ [name] :=
    (List.dropLast_append_getLast? name hname.symm).symm
  refine ⟨above ++ [name], vacant, hadds, ?_, hu'⟩
  rw [locate, hcheck, Path.steps_eq, hwalked, List.append_assoc]
  refine (hm .target _ (by simp)).trans ?_
  split
  · exact followWithin_idle (.inl rfl) |>.trans followWithin_nil
  · exact followWithin_nil

/-- Making directories adds directories where nothing was, and the path or a path above it
leads there afterwards. -/
theorem makeDirectories_grows (ht : t.WellFormed) (path : String) :
    Grows (fun l => t.entryAt? l = none ∧
      ∃ p ∈ path :: Path.above path, (t.makeDirectories path).2.locate .target p = .ok l) t
      (t.makeDirectories path).2 := by
  have hsteps := makeDirectories_steps t path
  generalize (t.makeDirectories path).2 = v at hsteps ⊢
  -- From the last directory to the first: what leads to one leads there in the trees behind.
  have hlater : ∀ u, u.WellFormed → (∀ l, t.entryAt? l ≠ none → u.entryAt? l ≠ none) →
      ReflTransGen (fun u v => ∃ p ∈ path :: Path.above path, u.makeDirectory p = .ok v) u v →
      Grows (fun l => t.entryAt? l = none ∧
        ∃ p ∈ path :: Path.above path, v.locate .target p = .ok l) u v := by
    intro u hu hold h
    induction h using ReflTransGen.head_induction_on with
    | refl => exact .refl
    | head step _ ih =>
      obtain ⟨p, hp, hmake⟩ := step
      obtain ⟨l, vacant, hadds, hlocate, hl⟩ := leads_of_makeDirectory hu hmake
      have hrest := ih (hadds.wellFormed hu) fun m hm => hadds.ne_none (hold m hm)
      obtain ⟨hcheck, way, hway⟩ := locate_eq_ok_iff.mp hlocate
      have hway' := hway.mono (fun m _ => Grows.stays hrest m)
        fun ends => by simp [Ends, hl] at ends
      refine .head ⟨l, ⟨?_, p, hp, locate_eq_ok_iff.mpr ⟨hcheck, way, hway'⟩⟩, hadds⟩ hrest
      exact Classical.byContradiction fun h => hold l h vacant
  exact hlater t ht (fun _ => id) hsteps

theorem noSlash_of_mem_freshName (n : Nat) : '/' ∉ (freshName n).toList := by
  intro h
  simp only [freshName, freshStart, String.toList_append, String.toList_ofList,
    List.mem_append, List.mem_replicate] at h
  rcases h with h | h | h
  · revert h
    decide
  · exact absurd h.2 (by decide)
  · exact absurd (Nat.isDigit_of_mem_toDigits (by decide) (by decide) h) (by decide)

theorem isName_freshName (n : Nat) : IsName (freshName n) := by
  refine ⟨?_, noSlash_of_mem_freshName n⟩
  have hfirst : (freshName n).toList.head? = some 'r' := by
    simp [freshName, freshStart]
  refine ⟨?_, ?_, ?_⟩ <;> exact fun heq => by simp [heq] at hfirst

/-- What a fresh directory is: it has the first of the names that is not there yet. -/
structure IsFresh (t : FileTree) (root path : String) (d : Location) (n : Nat) (u : FileTree) :
    Prop where
  leads : t.resolve .target (Path.steps root ++ [""]) = .ok d
  inRange : n ≤ t.entries.length
  taken : ∀ k < n, t.entryAt? (d ++ [freshName k]) ≠ none
  vacant : t.entryAt? (d ++ [freshName n]) = none
  path_eq : path = Path.join root (freshName n)
  check : checkPath path = .ok ()
  short : (freshName n).utf8ByteSize ≤ maxNameSize
  eq_put : u = t.put (d ++ [freshName n]) .directory

theorem find?_freshName_eq_some_iff {d : Location} {N : Nat} {name : String} :
    ((List.range N).map freshName).find? (fun name => (t.entryAt? (d ++ [name])).isNone)
        = some name ↔
      ∃ n < N, name = freshName n ∧ t.entryAt? (d ++ [freshName n]) = none ∧
        ∀ k < n, t.entryAt? (d ++ [freshName k]) ≠ none := by
  simp only [List.find?_map, Option.map_eq_some_iff, List.find?_range_eq_some, Function.comp_apply,
    List.mem_range, Option.isNone_iff_eq_none, Bool.not_eq_true', Option.isNone_eq_false_iff,
    Option.isSome_iff_ne_none]
  constructor
  · rintro ⟨n, ⟨hnone, hlt, htaken⟩, rfl⟩
    exact ⟨n, hlt, rfl, hnone, htaken⟩
  · rintro ⟨n, hlt, rfl, hnone, htaken⟩
    exact ⟨n, ⟨hnone, hlt, htaken⟩, rfl⟩

theorem makeFresh_eq_ok_iff {root : String} :
    t.makeFresh root = .ok (path, u) ↔ ∃ d n, t.IsFresh root path d n u := by
  constructor
  · intro h
    obtain ⟨d, hd, h⟩ := Except.bind_eq_ok_iff.mp h
    dsimp only at h
    split at h
    · rename_i name hname
      obtain ⟨n, hlt, rfl, hnone, htaken⟩ := find?_freshName_eq_some_iff.mp hname
      obtain ⟨_, hcheck, h⟩ := Except.bind_eq_ok_iff.mp h
      split at h
      · simp at h
      rename_i hshort
      obtain ⟨rfl, rfl⟩ := Prod.mk.inj (Except.ok.inj h)
      exact ⟨d, n, hd, by omega, htaken, hnone, rfl, hcheck, by omega, rfl⟩
    · simp at h
  · rintro ⟨d, n, h⟩
    have hfind := find?_freshName_eq_some_iff.mpr
      ⟨n, Nat.lt_succ_of_le h.inRange, rfl, h.vacant, h.taken⟩
    have hcheck := h.path_eq ▸ h.check
    rw [makeFresh, h.leads]
    simp only [bind, Except.bind, hfind, hcheck, if_neg (Nat.not_lt.mpr h.short), h.path_eq,
      h.eq_put]

/-- A fresh directory stands where nothing was, in the directory that the path leads to. -/
theorem makeFresh_adds (ht : t.WellFormed) {parent : String}
    (h : t.makeFresh parent = .ok (path, u)) : ∃ d n way,
      t.Leads .target maxLinks [] (Path.steps parent ++ [""]) way d ∧
      path = Path.join parent (freshName n) ∧ (freshName n).utf8ByteSize ≤ maxNameSize ∧
      t.entryAt? (d ++ [freshName n]) = none ∧ t.Adds (d ++ [freshName n]) u ∧
      u.entryAt? (d ++ [freshName n]) = some .directory := by
  obtain ⟨d, n, hfresh⟩ := makeFresh_eq_ok_iff.mp h
  obtain ⟨way, hway⟩ := exists_leads_of_followWithin hfresh.leads
  have hdirectory := (ht.directory_of_leads hway (entryAt?_nil t)).2
  refine ⟨d, n, way, hway, hfresh.path_eq, hfresh.short, hfresh.vacant, hfresh.eq_put ▸
    .directory ⟨d, _, rfl, isName_freshName n, hdirectory⟩ hfresh.vacant, ?_⟩
  rw [hfresh.eq_put, entryAt?_put t (by simp), if_pos rfl]

/-- What is no directory can be taken away. -/
theorem WellFormed.takes_erase (ht : t.WellFormed) (hl : t.entryAt? l ≠ some .directory) :
    t.Takes l (t.erase l) := by
  refine .entry (by rintro rfl; exact hl (entryAt?_nil t)) fun m hm hne => ?_
  rw [Option.eq_none_iff_forall_ne_some]
  exact fun entry hentry => hne (ht.eq_of_isPrefix hl hentry hm)

theorem removeFile_takes (ht : t.WellFormed) (h : t.removeFile path = .ok u) :
    ∃ l, t.locate .entry path = .ok l ∧ t.Takes l u := by
  obtain ⟨l, hl, h⟩ := Except.bind_eq_ok_iff.mp h
  have not_directory : t.entryAt? l ≠ some .directory := by
    intro hdirectory
    simp [hdirectory] at h
  have hu : u = t.erase l := by
    split at h <;> simp_all
  exact ⟨l, hl, hu ▸ ht.takes_erase not_directory⟩

theorem mem_entries_of_entryAt? (hm : m ≠ []) {entry : Entry} (h : t.entryAt? m = some entry) :
    (m, entry) ∈ t.entries := by
  rw [entryAt?, if_neg hm, Option.map_eq_some_iff] at h
  obtain ⟨⟨m', entry'⟩, hfind, rfl⟩ := h
  obtain rfl : m' = m := by simpa using List.find?_some hfind
  exact List.mem_of_find?_eq_some hfind

theorem wellFormed_of_hasRoom (h : ∀ e ∈ t.entries, t.HasRoom e.1) : t.WellFormed := by
  have hroom {m : Location} {name : String} {entry : Entry}
      (hm : t.entryAt? (m ++ [name]) = some entry) :
      IsName name ∧ t.entryAt? m = some .directory := by
    obtain ⟨d, a, heq, hname, hd⟩ := h _ (mem_entries_of_entryAt? (by simp) hm)
    obtain ⟨rfl, rfl⟩ := List.append_singleton_inj.mp heq
    exact ⟨hname, hd⟩
  exact ⟨fun m name entry hm => (hroom hm).2, fun m name entry hm => (hroom hm).1⟩

theorem removeDirectory_takes (h : t.removeDirectory path = .ok u) : ∃ above name,
    t.locateParent path = .ok (above, some name) ∧ IsPlain name ∧
      t.entryAt? (above ++ [name]) = some .directory ∧ t.Takes (above ++ [name]) u := by
  obtain ⟨⟨above, _ | name⟩, hparent, h⟩ := Except.bind_eq_ok_iff.mp h
  · simp at h
  dsimp only at h
  split at h
  · simp at h
  rename_i hdot
  split at h
  · simp at h
  rename_i hup
  split at h
  · simp at h
  · rename_i directory
    split at h
    · simp at h
    rename_i hbare
    obtain rfl := Except.ok.inj h
    refine ⟨above, name, hparent, ⟨ne_empty_of_locateParent hparent, hdot, hup⟩, directory,
      .entry (by simp) fun m hm hne => ?_⟩
    rw [Option.eq_none_iff_forall_ne_some]
    intro entry hentry
    have hmem := mem_entries_of_entryAt? (by rintro rfl; simp at hm) hentry
    exact hbare (List.any_eq_true.mpr ⟨_, hmem, by simp [hm, hne]⟩)
  · simp at h

/-! ## Requests -/

theorem Changes.adds (h : t.Adds l u) : Changes t u := .single ⟨l, .inl h⟩

theorem Changes.takes (h : t.Takes l u) : Changes t u := .single ⟨l, .inr h⟩

theorem makeDirectories_changes (ht : t.WellFormed) (path : String) :
    Changes t (t.makeDirectories path).2 := (makeDirectories_grows ht path).changes

theorem exists_of_changed_eq_ok {result : Except Error FileTree} {answer : Unit}
    (h : (t.changed result).1 = .ok answer) : ∃ u, result = .ok u ∧ (t.changed result).2 = u := by
  cases result with
  | error e => cases h
  | ok u => exact ⟨u, rfl, rfl⟩

theorem changes_changed {result : Except Error FileTree}
    (h : ∀ u, result = .ok u → Changes t u) : Changes t (t.changed result).2 := by
  cases result with
  | error e => exact .refl
  | ok u => exact h u rfl

/-- Any request changes a tree in steps. -/
theorem changes_serve (ht : t.WellFormed) (r : Request) : Changes t (serve r t).2 := by
  cases r with
  | isDirectory | filesBelow | contents | readText | watch | register => exact .refl
  | writeText path text =>
    refine changes_changed fun u h => ?_
    obtain ⟨l, -, hadds, -⟩ := writeFile_adds ht h
    exact .adds hadds
  | makeDirectories path => exact makeDirectories_changes ht path
  | makeFresh parent =>
    cases h : t.makeFresh parent with
    | error e =>
      rw [serve, h]
      exact .refl
    | ok made =>
      obtain ⟨d, n, -, -, -, -, -, hadds, -⟩ := makeFresh_adds ht h
      rw [serve, h]
      exact .adds hadds
  | removeFile path =>
    refine changes_changed fun u h => ?_
    obtain ⟨l, -, htakes⟩ := removeFile_takes ht h
    exact .takes htakes
  | removeDirectory path =>
    refine changes_changed fun u h => ?_
    obtain ⟨above, name, -, -, -, htakes⟩ := removeDirectory_takes h
    exact .takes htakes

/-- Any piece of work changes a tree in steps. -/
theorem changes_of_does {α : Type} {w : Work α} {a : α} {asked : List Request}
    (ht : t.WellFormed) (h : w.Does serve t asked a u) : Changes t u := by
  have hrun : (w.run serve t).2 = u := congrArg Prod.snd h.run
  rw [← hrun]
  clear h hrun
  induction w generalizing t with
  | done a => exact .refl
  | ask r next ih =>
    have hfirst := changes_serve ht r
    exact hfirst.trans (ih _ (hfirst.wellFormed ht))

end IdlCompiler.FileTree
