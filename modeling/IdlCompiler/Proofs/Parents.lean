/-
# The paths above a path

The parent of a path goes without its last name, and without names before it that lead nowhere.
The paths above a path are its parent and the paths above that.

Main statements: `above_eq_parent`; `exists_eq_walked_parent_append`, the names of a parent; and
`parent_joinAll`, the parent of what is below a path.
-/
import IdlCompiler.Proofs.Paths

namespace IdlCompiler.Path

variable {names rest : List String} {name p : String}

/-! ## Idle ends -/

/-- A name that leads nowhere. -/
def IsIdle (name : String) : Prop := name = "" ∨ name = "."

theorem dropIdleEnd_concat (h : ¬ IsIdle name) :
    dropIdleEnd (names ++ [name]) = names ++ [name] := by
  have hname : ¬ ((name = "" || name = ".") = true) := by simpa [IsIdle] using h
  simp [dropIdleEnd, hname]

theorem dropIdleEnd_concat_idle (h : IsIdle name) :
    dropIdleEnd (names ++ [name]) = dropIdleEnd names := by
  have hname : (name = "" || name = ".") = true := by simpa [IsIdle] using h
  simp [dropIdleEnd, hname]

/-- What is dropped at the end is idle. -/
theorem exists_eq_dropIdleEnd_append (names : List String) :
    ∃ idle, names = dropIdleEnd names ++ idle ∧ ∀ a ∈ idle, IsIdle a := by
  induction names using List.reverseRecOn with
  | nil => exact ⟨[], rfl, by simp⟩
  | append_singleton names name ih =>
    by_cases h : IsIdle name
    · obtain ⟨idle, heq, hidle⟩ := ih
      refine ⟨idle ++ [name], ?_, fun a ha => ?_⟩
      · rw [dropIdleEnd_concat_idle h, ← List.append_assoc, ← heq]
      · rcases List.mem_append.mp ha with ha | ha
        · exact hidle a ha
        · exact List.mem_singleton.mp ha ▸ h
    · exact ⟨[], by rw [dropIdleEnd_concat h, List.append_nil], by simp⟩

theorem dropIdleEnd_append_idle {idle : List String} (h : ∀ a ∈ idle, IsIdle a) :
    dropIdleEnd (names ++ idle) = dropIdleEnd names := by
  induction idle using List.reverseRecOn with
  | nil => rw [List.append_nil]
  | append_singleton idle name ih =>
    rw [← List.append_assoc, dropIdleEnd_concat_idle (h name (by simp))]
    exact ih fun a ha => h a (List.mem_append_left _ ha)

theorem dropIdleEnd_dropIdleEnd (names : List String) :
    dropIdleEnd (dropIdleEnd names) = dropIdleEnd names := by
  obtain ⟨idle, heq, hidle⟩ := exists_eq_dropIdleEnd_append names
  conv_rhs => rw [heq, dropIdleEnd_append_idle hidle]

/-! ## Parents -/

/-- The beginnings of names that do not end idly, from the longest of so many names. -/
def beginnings (names : List String) (n : Nat) : List (List String) :=
  ((List.range n).reverse.map fun n => names.take n).filter fun names => dropIdleEnd names = names

theorem above_eq {first : String} (h : rawNames p = first :: rest) :
    above p = ((beginnings (dropIdleEnd rest) (dropIdleEnd rest).length).map fun names =>
      "/".intercalate (first :: names)).filter fun path => path ≠ "" := by
  simp [above, h, beginnings]

theorem beginnings_succ (names : List String) (n : Nat) : beginnings names (n + 1) =
    if dropIdleEnd (names.take n) = names.take n then names.take n :: beginnings names n
    else beginnings names n := by
  simp only [beginnings, List.range_succ, List.reverse_append, List.reverse_singleton,
    List.singleton_append, List.map_cons, List.filter_cons, decide_eq_true_eq]

theorem beginnings_take {n m : Nat} (hm : m ≤ n) :
    beginnings (names.take n) m = beginnings names m := by
  induction m with
  | zero => rfl
  | succ m ih =>
    rw [beginnings_succ, beginnings_succ, ih (by omega), List.take_take, Nat.min_eq_left (by omega)]

/-- The longest beginning is followed by its own beginnings. -/
theorem beginnings_eq_cons (names : List String) (n : Nat) : ∃ k ≤ n,
    names.take k = dropIdleEnd (names.take n) ∧
      beginnings names (n + 1) = names.take k :: beginnings names k := by
  induction n with
  | zero => exact ⟨0, Nat.le_refl 0, by simp [dropIdleEnd], by simp [beginnings_succ, dropIdleEnd]⟩
  | succ n ih =>
    rw [beginnings_succ]
    by_cases h : dropIdleEnd (names.take (n + 1)) = names.take (n + 1)
    · exact ⟨n + 1, Nat.le_refl _, h.symm, if_pos h⟩
    · obtain ⟨k, hk, hlongest, hbeginnings⟩ := ih
      refine ⟨k, Nat.le_succ_of_le hk, ?_, by rw [if_neg h, hbeginnings]⟩
      -- The last name is idle, as it is dropped.
      by_cases hn : n < names.length
      · rw [List.take_add_one, List.getElem?_eq_getElem hn, Option.toList_some] at h ⊢
        by_cases hidle : IsIdle names[n]
        · rw [dropIdleEnd_concat_idle hidle, hlongest]
        · exact absurd (dropIdleEnd_concat hidle) h
      · rw [hlongest, List.take_of_length_le (i := n + 1) (by omega),
          List.take_of_length_le (by omega)]

theorem rawNames_ne_nil (p : String) : rawNames p ≠ [] := by
  intro h
  have hsplit : Text.splitOn '/' p.toList = [] := by simpa [rawNames] using h
  have hjoin := Text.joinWith_splitOn '/' p.toList
  rw [hsplit] at hjoin
  have : p.toList = [] := hjoin.symm
  rw [this] at hsplit
  exact absurd hsplit (by decide)

theorem intercalate_rawNames (p : String) : "/".intercalate (rawNames p) = p := by
  apply String.toList_injective
  rw [String.toList_intercalate, rawNames, List.map_map]
  have hid : (String.toList ∘ String.ofList) = id := by
    funext cs
    simp
  rw [hid, List.map_id, ← Text.joinWith_splitOn '/' p.toList, Text.joinWith_eq_intercalate]
  simp [← Text.joinWith_eq_intercalate, Text.joinWith_splitOn]

theorem rawNames_join {first : String} (h : rawNames p = first :: rest)
    (hnames : names <+: rest) : rawNames ("/".intercalate (first :: names)) = first :: names := by
  refine rawNames_intercalate (List.cons_ne_nil _ _) fun a ha => ?_
  have hmem : first :: names <+: rawNames p := h ▸ List.cons_prefix_cons.mpr ⟨rfl, hnames⟩
  exact noSlash_of_mem_rawNames (hmem.subset ha)

theorem above_eq_nil {first : String} (h : rawNames p = first :: rest)
    (hrest : dropIdleEnd rest = []) : above p = [] := by
  rw [above_eq h, hrest]
  rfl

/-- The parent of a path goes without its last name and without what is idle before that. -/
theorem above_eq_cons {first : String} (h : rawNames p = first :: rest)
    (hrest : dropIdleEnd rest ≠ []) :
    parent p = "/".intercalate (first :: dropIdleEnd (dropIdleEnd rest).dropLast) ∧
      above p = if parent p = "" then [] else parent p :: above (parent p) := by
  set names := dropIdleEnd rest with hnames
  obtain ⟨n, hn⟩ : ∃ n, names.length = n + 1 :=
    Nat.exists_eq_succ_of_ne_zero (by simpa using hrest)
  have hlast : names.dropLast = names.take n := by rw [List.dropLast_eq_take, hn]; rfl
  have habove := above_eq h
  rw [← hnames, hn] at habove
  obtain ⟨k, hk, hlongest, hbeginnings⟩ := beginnings_eq_cons names n
  rw [hlast, ← hlongest]
  set q := "/".intercalate (first :: names.take k) with hq
  have hraw : rawNames q = first :: names.take k :=
    rawNames_join h ((List.take_prefix ..).trans (dropIdleEnd_isPrefix rest))
  have haboveq := above_eq hraw
  have hidle : dropIdleEnd (names.take k) = names.take k := by
    rw [hlongest, dropIdleEnd_dropIdleEnd]
  rw [hidle, List.length_take, Nat.min_eq_left (by omega),
    beginnings_take (Nat.le_refl k)] at haboveq
  rw [hbeginnings, List.map_cons, List.filter_cons, ← haboveq] at habove
  by_cases hempty : q = ""
  · -- Only the top of the tree is an empty path, and nothing is above it.
    have htop : first :: names.take k = [""] := by rw [← hraw, hempty]; decide
    have habove' : above q = [] := above_eq_nil hraw (by rw [(List.cons.inj htop).2]; rfl)
    have hnil : above p = [] := by rw [habove, habove']; simp [← hq, hempty]
    simp [parent, hnil, hempty]
  · have hcons : above p = q :: above q := by rw [habove]; simp [← hq, hempty]
    have hparent : parent p = q := by rw [parent, hcons]; rfl
    exact ⟨hparent, by rw [hparent, if_neg hempty, hcons]⟩

/-- The paths above a path are its parent and the paths above that. -/
theorem above_eq_parent (p : String) :
    above p = if parent p = "" then [] else parent p :: above (parent p) := by
  obtain ⟨first, rest, hraw⟩ := List.exists_cons_of_ne_nil (rawNames_ne_nil p)
  by_cases hrest : dropIdleEnd rest = []
  · simp [parent, above_eq_nil hraw hrest]
  · exact (above_eq_cons hraw hrest).2

theorem intercalate_append (first : String) (names : List String) {more : List String}
    (hmore : more ≠ []) : "/".intercalate (first :: (names ++ more))
      = "/".intercalate (first :: names) ++ ("/" ++ "/".intercalate more) := by
  induction names generalizing first with
  | nil =>
    obtain ⟨next, more, rfl⟩ := List.exists_cons_of_ne_nil hmore
    simp [String.intercalate_cons_cons, String.append_assoc]
  | cons name names ih =>
    simp only [List.cons_append, String.intercalate_cons_cons, ih, String.append_assoc]

/-- A path starts with its parent. -/
theorem exists_eq_parent_append (p : String) : ∃ behind, p = parent p ++ behind := by
  obtain ⟨first, rest, hraw⟩ := List.exists_cons_of_ne_nil (rawNames_ne_nil p)
  by_cases hrest : dropIdleEnd rest = []
  · exact ⟨p, by simp [parent, above_eq_nil hraw hrest]⟩
  · obtain ⟨more, hmore⟩ : dropIdleEnd (dropIdleEnd rest).dropLast <+: rest :=
      (dropIdleEnd_isPrefix _).trans ((List.dropLast_prefix _).trans (dropIdleEnd_isPrefix rest))
    rw [(above_eq_cons hraw hrest).1]
    conv => enter [1, behind, 1]; rw [← intercalate_rawNames p, hraw, ← hmore]
    cases more with
    | nil => exact ⟨"", by simp⟩
    | cons name more => exact ⟨_, intercalate_append first _ (List.cons_ne_nil name more)⟩

theorem dropIdleEnd_ne_concat : dropIdleEnd names ≠ names ++ [name] := by
  intro h
  have hle := (dropIdleEnd_isPrefix names).length_le
  rw [h, List.length_append, List.length_singleton] at hle
  omega

/-- What a path that ends with a name has behind this name leads nowhere. -/
theorem eq_of_append_eq_append_idle {idle : List String} {names' : List String}
    (h : names' ++ idle.filter (fun a => a ≠ "") = names ++ [name]) (hname : ¬ IsIdle name)
    (hidle : ∀ a ∈ idle, IsIdle a) : names' = names ++ [name] := by
  rcases List.eq_nil_or_concat' (idle.filter fun a => a ≠ "") with hnil | ⟨more, last, hlast⟩
  · rwa [hnil, List.append_nil] at h
  · rw [hlast, ← List.append_assoc] at h
    have hmem : last ∈ idle.filter fun a => a ≠ "" := by
      rw [hlast]
      exact List.mem_append_right _ (List.mem_singleton_self last)
    obtain rfl : last = name := List.singleton_inj.mp (List.append_inj_right' h rfl)
    exact absurd (hidle last (List.mem_of_mem_filter hmem)) hname

/-- The names of a path are those of its parent and its last name, apart from idle ones. -/
theorem exists_eq_walked_parent_append (h : walked p = names ++ [name]) (hname : ¬ IsIdle name) :
    ∃ idle, names = walked (parent p) ++ idle ∧ ∀ a ∈ idle, IsIdle a := by
  obtain ⟨first, rest, hraw⟩ := List.exists_cons_of_ne_nil (rawNames_ne_nil p)
  obtain ⟨idle, hdrop, hidle⟩ := exists_eq_dropIdleEnd_append rest
  rw [walked, hraw, hdrop, ← List.cons_append, List.filter_append] at h
  have hnames := eq_of_append_eq_append_idle h hname hidle
  rcases List.eq_nil_or_concat' (dropIdleEnd rest) with hrest | ⟨before, last, hrest⟩
  · have hparent : parent p = "" := by simp [parent, above_eq_nil hraw hrest]
    have hlength := congrArg List.length hnames
    have hle := List.length_filter_le (fun a => decide (a ≠ "")) [first]
    rw [hrest] at hlength
    obtain rfl : names = [] := List.length_eq_zero_iff.mp (by simp at hlength hle; omega)
    exact ⟨[], by rw [hparent]; decide, by simp⟩
  · have hlast : ¬ IsIdle last := by
      intro hidle
      have hdropped := dropIdleEnd_dropIdleEnd rest
      rw [hrest, dropIdleEnd_concat_idle hidle] at hdropped
      exact dropIdleEnd_ne_concat hdropped
    obtain ⟨idle', hdrop', hidle'⟩ := exists_eq_dropIdleEnd_append before
    have hlast' : last ≠ "" := fun h => hlast (.inl h)
    have hparent := (above_eq_cons hraw (by simp [hrest])).1
    have hprefix : dropIdleEnd before <+: rest := (dropIdleEnd_isPrefix before).trans
      ((List.prefix_append before [last]).trans (hrest ▸ dropIdleEnd_isPrefix rest))
    rw [hrest, List.dropLast_concat] at hparent
    have hfilter : [last].filter (fun a => a ≠ "") = [last] := by simp [hlast']
    rw [hrest, ← List.cons_append, List.filter_append, hdrop', ← List.cons_append,
      List.filter_append, hfilter] at hnames
    refine ⟨idle'.filter fun a => a ≠ "", ?_, fun a ha => hidle' a (List.mem_of_mem_filter ha)⟩
    rw [walked, hparent, rawNames_join hraw hprefix]
    exact (List.append_inj_left' hnames rfl).symm

theorem exists_rawNames_join_eq (d : String) (hname : IsName name) :
    ∃ names, rawNames (join d name) = names ++ [name] := by
  unfold join
  rw [isAbsolute_of_noSlash hname.noSlash, Bool.false_or]
  have hraw := rawNames_of_noSlash hname.noSlash
  by_cases hd : d = ""
  · exact ⟨[], by rw [if_pos (decide_eq_true hd), hraw, List.nil_append]⟩
  · rw [if_neg (by simpa using hd)]
    by_cases hslash : hasFinalSlash d
    · obtain ⟨start, rfl⟩ := exists_eq_append_slash hslash
      exact ⟨rawNames start, by rw [if_pos hslash, rawNames_append_slash, hraw]⟩
    · exact ⟨rawNames d, by rw [if_neg hslash, rawNames_append_slash, hraw]⟩

theorem IsName.not_isIdle (h : IsName name) : ¬ IsIdle name := by
  rintro (hname | hname)
  · exact h.plain.1 hname
  · exact h.plain.2.1 hname

theorem parent_eq {first : String} (h : rawNames p = first :: (names ++ [name]))
    (hname : ¬ IsIdle name) : parent p = "/".intercalate (first :: dropIdleEnd names) := by
  have hrest : dropIdleEnd (names ++ [name]) = names ++ [name] := dropIdleEnd_concat hname
  have hparent := (above_eq_cons h (by rw [hrest]; simp)).1
  rwa [hrest, List.dropLast_concat] at hparent

/-- The parent of a path below a path that ends with a name is this path. -/
theorem parent_join_join (d : String) {last : String} (hlast : IsName last) (hname : IsName name) :
    parent (join (join d last) name) = join d last := by
  have hd : join d last ≠ "" := join_ne_empty hlast.plain.1
  have hslash : hasFinalSlash (join d last) = false := by
    rw [hasFinalSlash_join hlast.plain.1, hasFinalSlash_of_noSlash hlast.noSlash]
  obtain ⟨names, hraw⟩ := exists_rawNames_join_eq d hlast
  have hraw' : rawNames (join (join d last) name) = names ++ [last] ++ [name] := by
    rw [join_of_noFinalSlash hd hslash hname, rawNames_append_slash, hraw,
      rawNames_of_noSlash hname.noSlash]
  suffices h : parent (join (join d last) name) = "/".intercalate (names ++ [last]) by
    rw [h, ← hraw, intercalate_rawNames]
  cases names with
  | nil => exact parent_eq hraw' hname.not_isIdle
  | cons first names =>
    have hrest : dropIdleEnd (names ++ [last]) = names ++ [last] :=
      dropIdleEnd_concat hlast.not_isIdle
    rw [List.cons_append, List.cons_append] at hraw'
    rw [parent_eq hraw' hname.not_isIdle, hrest, List.cons_append]

theorem exists_joinAll_eq_join (d : String) {last : String} (hlast : IsName last)
    (hnames : ∀ a ∈ names, IsName a) :
    ∃ e last', IsName last' ∧ joinAll (join d last) names = join e last' := by
  rcases List.eq_nil_or_concat' names with rfl | ⟨before, last', rfl⟩
  · exact ⟨d, last, hlast, rfl⟩
  · exact ⟨joinAll (join d last) before, last', hnames last' (by simp), by
      rw [joinAll_append]⟩

theorem hasFinalSlash_joinAll (d : String) (names : List String) (h : IsName name) :
    hasFinalSlash (joinAll d (names ++ [name])) = false := by
  rw [joinAll_append, hasFinalSlash_join h.plain.1, hasFinalSlash_of_noSlash h.noSlash]

theorem parent_joinAll (d : String) {last : String} (hlast : IsName last)
    (hnames : ∀ a ∈ names, IsName a) (hname : IsName name) :
    parent (joinAll (join d last) (names ++ [name])) = joinAll (join d last) names := by
  obtain ⟨e, last', hlast', heq⟩ := exists_joinAll_eq_join d hlast hnames
  rw [joinAll_append, heq, parent_join_join e hlast' hname]

/-- The path of what is below a directory tells the name of the directory at one place. -/
theorem exists_joinAll_join_eq (d : String) (hnames : ∀ a ∈ names, IsName a) :
    ∃ front behind, ∀ name, IsName name →
      joinAll (join d name) names = front ++ name ++ behind := by
  induction names using List.reverseRecOn with
  | nil =>
    refine ⟨if d = "" then "" else if hasFinalSlash d then d else d ++ "/", "",
      fun name hname => ?_⟩
    change join d name = _
    rw [join, isAbsolute_of_noSlash hname.noSlash, Bool.false_or, String.append_empty]
    by_cases hd : d = ""
    · simp [hd]
    · by_cases hslash : hasFinalSlash d <;> simp [hd, hslash]
  | append_singleton init last ih =>
    obtain ⟨front, behind, hinit⟩ := ih fun a ha => hnames a (List.mem_append_left _ ha)
    refine ⟨front, behind ++ ("/" ++ last), fun name hname => ?_⟩
    have hlast := hnames last (by simp)
    obtain ⟨first, name', heq⟩ := (List.eq_nil_or_concat' (name :: init)).resolve_left (by simp)
    have hname' : IsName name' := by
      have hmem : name' ∈ name :: init := by simp [heq]
      rcases List.mem_cons.mp hmem with rfl | hmem
      · exact hname
      · exact hnames _ (List.mem_append_left _ hmem)
    have hslash : hasFinalSlash (joinAll (join d name) init) = false := by
      have hjoin : joinAll (join d name) init = joinAll d (first ++ [name']) := by
        rw [← heq]
        rfl
      rw [hjoin]
      exact hasFinalSlash_joinAll d first hname'
    have hne : joinAll (join d name) init ≠ "" := by
      rw [hinit name hname]
      simp [hname.plain.1]
    rw [joinAll_append, join, isAbsolute_of_noSlash hlast.noSlash, Bool.false_or,
      if_neg (by simpa using hne), hslash, hinit name hname]
    simp only [Bool.false_eq_true, if_false, String.append_assoc]
end IdlCompiler.Path
