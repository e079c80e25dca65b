/-
# The names of paths

A path leads along its names.  Joining paths puts their names one after the other, whatever
slashes stand between them, and the paths above a path have the first of its names.

Main statements: `walked_join`, `steps_joinAll` and `walked_isPrefix_of_mem_above`.
-/
import IdlCompiler.FileTree.Path
import IdlCompiler.Proofs.Conformance
import Mathlib.Data.List.Induction

namespace IdlCompiler

namespace Text

/-- A separator divides a text into parts that are divided on their own. -/
theorem splitOn_append_sep (sep : Char) (cs ds : List Char) :
    splitOn sep (cs ++ sep :: ds) = splitOn sep cs ++ splitOn sep ds := by
  induction cs with
  | nil => simp [splitOn]
  | cons c cs ih =>
    rw [List.cons_append, splitOn, splitOn, ih]
    split
    · rfl
    · cases hs : splitOn sep cs with
      | nil => exact absurd hs (splitOn_ne_nil _ _)
      | cons p ps => rfl

theorem notMem_of_mem_splitOn {sep : Char} {cs part : List Char} (h : part ∈ splitOn sep cs) :
    sep ∉ part := by
  induction cs generalizing part with
  | nil => simp_all [splitOn]
  | cons c cs ih =>
    rw [splitOn] at h
    split at h
    · rcases List.mem_cons.mp h with rfl | h
      · simp
      · exact ih h
    · rename_i hc
      cases hs : splitOn sep cs with
      | nil => exact absurd hs (splitOn_ne_nil _ _)
      | cons p ps =>
        rw [hs] at h ih
        rcases List.mem_cons.mp h with rfl | h
        · simp [Ne.symm hc, ih List.mem_cons_self]
        · exact ih (List.mem_cons_of_mem _ h)

end Text

namespace Path

/-! ## Names -/

/-- A name that leads down. -/
def IsPlain (name : String) : Prop := name ≠ "" ∧ name ≠ "." ∧ name ≠ ".."

instance : DecidablePred IsPlain := fun name =>
  inferInstanceAs (Decidable (name ≠ "" ∧ name ≠ "." ∧ name ≠ ".."))

/-- A name that an entry of a directory can have. -/
structure IsName (name : String) : Prop where
  plain : IsPlain name
  noSlash : '/' ∉ name.toList

instance : DecidablePred IsName := fun name =>
  decidable_of_iff (IsPlain name ∧ '/' ∉ name.toList)
    ⟨fun ⟨plain, noSlash⟩ => ⟨plain, noSlash⟩, fun h => ⟨h.plain, h.noSlash⟩⟩

/-- Names are idle, lead up, or lead down. -/
theorem name_cases (name : String) :
    (name = "" ∨ name = ".") ∨ name = ".." ∨ IsPlain name := by
  by_cases hidle : name = "" ∨ name = "."
  · exact .inl hidle
  · by_cases hup : name = ".."
    · exact .inr (.inl hup)
    · exact .inr (.inr ⟨fun h => hidle (.inl h), fun h => hidle (.inr h), hup⟩)

/-- The names that a path leads along. -/
def walked (path : String) : List String := (rawNames path).filter fun name => name ≠ ""

theorem steps_eq (path : String) :
    steps path = walked path ++ if hasFinalSlash path then [""] else [] := by
  unfold steps walked
  split <;> simp

/-- A path whose steps end with a name has no slash at its end. -/
theorem walked_eq_of_steps {path name : String} {names : List String}
    (h : steps path = names ++ [name]) (hname : name ≠ "") : walked path = names ++ [name] := by
  rw [steps_eq] at h
  split at h
  · exact absurd (List.append_inj_right' h rfl |> List.singleton_inj.mp).symm hname
  · rwa [List.append_nil] at h

theorem ne_empty_and_noSlash_of_mem_walked {path name : String} (h : name ∈ walked path) :
    name ≠ "" ∧ '/' ∉ name.toList := by
  obtain ⟨hname, hne⟩ := List.mem_filter.mp h
  obtain ⟨part, hpart, rfl⟩ := List.mem_map.mp hname
  exact ⟨of_decide_eq_true hne, by simpa using Text.notMem_of_mem_splitOn hpart⟩

theorem noSlash_of_mem_steps {path name : String} (h : name ∈ steps path) :
    '/' ∉ name.toList := by
  rw [steps_eq, List.mem_append] at h
  rcases h with h | h
  · exact (ne_empty_and_noSlash_of_mem_walked h).2
  · split at h <;> simp_all

theorem isName_of_mem_walked {path name : String} (h : name ∈ walked path)
    (hdot : name ≠ ".") (hup : name ≠ "..") : IsName name :=
  ⟨⟨(ne_empty_and_noSlash_of_mem_walked h).1, hdot, hup⟩,
    (ne_empty_and_noSlash_of_mem_walked h).2⟩

theorem rawNames_of_noSlash {name : String} (h : '/' ∉ name.toList) : rawNames name = [name] := by
  simp [rawNames, Text.splitOn_of_notMem h]

theorem walked_of_isName {name : String} (h : IsName name) : walked name = [name] := by
  simp [walked, rawNames_of_noSlash h.noSlash, h.plain.1]

theorem hasFinalSlash_of_noSlash {path : String} (h : '/' ∉ path.toList) :
    hasFinalSlash path = false := by
  simp only [hasFinalSlash, decide_eq_false_iff_not]
  exact fun hlast => h (List.mem_of_getLast? hlast)

theorem isAbsolute_of_noSlash {path : String} (h : '/' ∉ path.toList) :
    isAbsolute path = false := by
  simp only [isAbsolute, decide_eq_false_iff_not]
  exact fun hhead => h (List.mem_of_head? hhead)

/-! ## Joined paths -/

theorem rawNames_append_slash (p q : String) :
    rawNames (p ++ "/" ++ q) = rawNames p ++ rawNames q := by
  have hparts : (p ++ "/" ++ q).toList = p.toList ++ '/' :: q.toList := by simp
  simp [rawNames, hparts, Text.splitOn_append_sep]

theorem exists_eq_append_slash {path : String} (h : hasFinalSlash path) :
    ∃ start, path = start ++ "/" := by
  obtain ⟨cs, hcs⟩ := List.getLast?_eq_some_iff.mp (of_decide_eq_true h)
  exact ⟨String.ofList cs, by rw [← String.toList_inj, hcs]; simp⟩

@[simp] theorem walked_empty : walked "" = [] := by decide

theorem walked_append_slash (p q : String) : walked (p ++ "/" ++ q) = walked p ++ walked q := by
  rw [walked, rawNames_append_slash, List.filter_append]
  rfl

theorem walked_slash (p : String) : walked (p ++ "/") = walked p := by
  have h := walked_append_slash p ""
  rwa [String.append_empty, walked_empty, List.append_nil] at h

/-- The names of a joined path are those of its parts. -/
theorem walked_join {d p : String} (h : isAbsolute p = false) :
    walked (join d p) = walked d ++ walked p := by
  unfold join
  by_cases hd : d = ""
  · subst hd
    simp
  rw [h, Bool.false_or, if_neg (by simpa using hd)]
  split
  · rename_i hslash
    obtain ⟨start, rfl⟩ := exists_eq_append_slash hslash
    rw [walked_append_slash, walked_slash]
  · rw [walked_append_slash]

theorem hasFinalSlash_append {p : String} (hp : p ≠ "") (start : String) :
    hasFinalSlash (start ++ p) = hasFinalSlash p := by
  obtain ⟨c, hlast⟩ := Option.ne_none_iff_exists'.mp (mt List.getLast?_eq_none_iff.mp
    (mt String.toList_eq_nil_iff.mp hp))
  simp [hasFinalSlash, List.getLast?_append, hlast]

theorem hasFinalSlash_join {d p : String} (hp : p ≠ "") :
    hasFinalSlash (join d p) = hasFinalSlash p := by
  unfold join
  split
  · rfl
  split <;> exact hasFinalSlash_append hp _

theorem join_ne_empty {d p : String} (hp : p ≠ "") : join d p ≠ "" := by
  unfold join
  split
  · exact hp
  split <;> simp [hp]

theorem isAbsolute_append {p : String} (hp : p ≠ "") (rest : String) :
    isAbsolute (p ++ rest) = isAbsolute p := by
  obtain ⟨c, cs, hcs⟩ := List.exists_cons_of_ne_nil (mt String.toList_eq_nil_iff.mp hp)
  simp [isAbsolute, hcs]

theorem join_append {p : String} (hp : p ≠ "") (d rest : String) :
    join d (p ++ rest) = join d p ++ rest := by
  unfold join
  rw [isAbsolute_append hp]
  split
  · rfl
  split <;> simp only [String.append_assoc]

/-- A name is joined with a slash to a path that ends with a name. -/
theorem join_of_noFinalSlash {d name : String} (hd : d ≠ "") (hslash : hasFinalSlash d = false)
    (hname : IsName name) : join d name = d ++ "/" ++ name := by
  simp [join, isAbsolute_of_noSlash hname.noSlash, hd, hslash]

theorem walked_joinAll {d : String} {names : List String} (h : ∀ a ∈ names, IsName a) :
    walked (joinAll d names) = walked d ++ names := by
  induction names generalizing d with
  | nil => simp [joinAll]
  | cons a names ih =>
    obtain ⟨ha, hrest⟩ := List.forall_mem_cons.mp h
    rw [joinAll, List.foldl_cons, ← joinAll, ih hrest,
      walked_join (isAbsolute_of_noSlash ha.noSlash), walked_of_isName ha, List.append_assoc]
    rfl

theorem joinAll_append (d : String) (names : List String) (name : String) :
    joinAll d (names ++ [name]) = join (joinAll d names) name := List.foldl_concat ..

theorem joinAll_ne_empty {d : String} {names : List String} (hne : names ≠ [])
    (h : ∀ a ∈ names, IsName a) : joinAll d names ≠ "" := by
  obtain ⟨init, last, rfl⟩ := (List.eq_nil_or_concat' names).resolve_left hne
  rw [joinAll_append]
  exact join_ne_empty (h last (by simp)).plain.1

theorem joinAll_ne_empty_of_ne_empty {d : String} {names : List String} (hd : d ≠ "")
    (h : ∀ a ∈ names, IsName a) : joinAll d names ≠ "" := by
  cases names with
  | nil => exact hd
  | cons => exact joinAll_ne_empty (List.cons_ne_nil _ _) h

theorem mem_of_mem_join {c : Char} {d p : String} (h : c ∈ (join d p).toList) :
    c ∈ d.toList ∨ c = '/' ∨ c ∈ p.toList := by
  unfold join at h
  split at h
  · exact .inr (.inr h)
  split at h
  · rw [String.toList_append, List.mem_append] at h
    exact h.imp_right .inr
  · simpa [or_assoc] using h

theorem mem_of_mem_joinAll {c : Char} {d : String} {names : List String}
    (h : c ∈ (joinAll d names).toList) :
    c ∈ d.toList ∨ c = '/' ∨ ∃ a ∈ names, c ∈ a.toList := by
  induction names using List.reverseRecOn with
  | nil => exact .inl h
  | append_singleton names name ih =>
    rw [joinAll_append] at h
    obtain h | h | h := mem_of_mem_join h
    · obtain h | h | ⟨a, ha, h⟩ := ih h
      · exact .inl h
      · exact .inr (.inl h)
      · exact .inr (.inr ⟨a, List.mem_append_left _ ha, h⟩)
    · exact .inr (.inl h)
    · exact .inr (.inr ⟨name, by simp, h⟩)

/-- The steps of a path below a directory. -/
theorem steps_joinAll {d : String} {names : List String} (hne : names ≠ [])
    (h : ∀ a ∈ names, IsName a) : steps (joinAll d names) = walked d ++ names := by
  obtain ⟨init, name, rfl⟩ := (List.eq_nil_or_concat' names).resolve_left hne
  have hname := h name (by simp)
  rw [steps_eq, walked_joinAll h, joinAll_append, hasFinalSlash_join hname.plain.1,
    hasFinalSlash_of_noSlash hname.noSlash]
  simp

theorem length_lt_join {d name : String} (hname : IsName name) :
    d.length < (join d name).length := by
  have hpositive : 0 < name.length :=
    Nat.pos_of_ne_zero fun h => hname.plain.1 (String.length_eq_zero_iff.mp h)
  unfold join
  rw [isAbsolute_of_noSlash hname.noSlash, Bool.false_or]
  split
  · rename_i hd
    simpa [of_decide_eq_true hd] using hpositive
  split <;> simp only [String.length_append] <;> omega

theorem le_utf8ByteSize_join {d p : String} (hp : isAbsolute p = false) :
    d.utf8ByteSize + p.utf8ByteSize ≤ (join d p).utf8ByteSize := by
  unfold join
  rw [hp, Bool.false_or]
  split
  · rename_i hd
    simp [of_decide_eq_true hd]
  split <;> simp only [String.utf8ByteSize_append] <;> omega

/-- Names lead away from a path. -/
theorem joinAll_eq_self_iff {d : String} {names : List String} (h : ∀ a ∈ names, IsName a) :
    joinAll d names = d ↔ names = [] := by
  have hle : ∀ {d : String} {names : List String}, (∀ a ∈ names, IsName a) →
      d.length ≤ (joinAll d names).length := by
    intro d names h
    induction names generalizing d with
    | nil => exact Nat.le_refl _
    | cons a names ih =>
      obtain ⟨ha, hrest⟩ := List.forall_mem_cons.mp h
      exact Nat.le_trans (Nat.le_of_lt (length_lt_join ha)) (ih hrest)
  refine ⟨fun heq => ?_, fun heq => heq ▸ rfl⟩
  cases names with
  | nil => rfl
  | cons a names =>
    obtain ⟨ha, hrest⟩ := List.forall_mem_cons.mp h
    have hlt := Nat.lt_of_lt_of_le (length_lt_join (d := d) ha) (hle hrest)
    rw [joinAll, List.foldl_cons, ← joinAll] at heq
    rw [heq] at hlt
    exact absurd hlt (Nat.lt_irrefl _)

/-! ## Paths above a path -/

theorem rawNames_intercalate {names : List String} (hne : names ≠ [])
    (h : ∀ a ∈ names, '/' ∉ a.toList) : rawNames ("/".intercalate names) = names := by
  have hparts : ∀ part ∈ names.map String.toList, '/' ∉ part := by
    rintro part hpart
    obtain ⟨a, ha, rfl⟩ := List.mem_map.mp hpart
    exact h a ha
  have hjoined : ("/".intercalate names).toList =
      Text.joinWith ['/'] (names.map String.toList) := by
    rw [String.toList_intercalate, Text.joinWith_eq_intercalate]
    rfl
  rw [rawNames, hjoined, Text.splitOn_joinWith (by simpa using hne) hparts, List.map_map]
  simp [Function.comp_def]

theorem dropIdleEnd_isPrefix (names : List String) : dropIdleEnd names <+: names := by
  have h := List.dropWhile_suffix (l := names.reverse) fun name => name = "" || name = "."
  rw [← List.reverse_prefix, List.reverse_reverse] at h
  exact h

theorem noSlash_of_mem_rawNames {path name : String} (h : name ∈ rawNames path) :
    '/' ∉ name.toList := by
  obtain ⟨part, hpart, rfl⟩ := List.mem_map.mp h
  simpa using Text.notMem_of_mem_splitOn hpart

/-- The paths above a path have the first of its names. -/
theorem walked_isPrefix_of_mem_above {p path : String} (h : p ∈ above path) :
    walked p <+: walked path := by
  cases hraw : rawNames path with
  | nil => simp [above, hraw] at h
  | cons first rest =>
    simp only [above, hraw, List.mem_filter, List.mem_map, List.mem_reverse, List.mem_range] at h
    obtain ⟨⟨names, ⟨⟨n, -, rfl⟩, -⟩, rfl⟩, -⟩ := h
    have hfirst : first :: (dropIdleEnd rest).take n <+: rawNames path :=
      hraw ▸ List.cons_prefix_cons.mpr
        ⟨rfl, ( List.take_prefix ..).trans (dropIdleEnd_isPrefix rest)⟩
    rw [walked, rawNames_intercalate (List.cons_ne_nil _ _) fun a ha =>
      noSlash_of_mem_rawNames (hfirst.subset ha)]
    exact hfirst.filter _

theorem walked_isPrefix_of_mem_cons_above {p path : String} (h : p ∈ path :: above path) :
    walked p <+: walked path := by
  rcases List.mem_cons.mp h with rfl | h
  · exact List.prefix_rfl
  · exact walked_isPrefix_of_mem_above h

theorem walked_parent_isPrefix (path : String) : walked (parent path) <+: walked path := by
  unfold parent
  cases habove : above path with
  | nil => exact walked_empty ▸ List.nil_prefix
  | cons p rest =>
    have hp : p ∈ above path := habove ▸ List.mem_cons_self
    exact walked_isPrefix_of_mem_above hp

end Path

end IdlCompiler
