/-
# The sources of a run

What a discovery finds are files below the source directory, by the names that lead to them.
The schema that a source is lowered to has the same names but for the last.

Main statements: `of_does_discover`, and `exists_loweredFile_eq`, the schema that a source is
lowered to is below the workspace.
-/
import IdlCompiler.Build.Discovery
import IdlCompiler.Proofs.Batches
import IdlCompiler.Proofs.Walks
import IdlCompiler.Proofs.Workspaces

namespace IdlCompiler.Build

open FileTree
open IdlCompiler.Path (IsName walked join joinAll)

variable {t u : FileTree} {names : List String} {asked : List Request}

/-! ## Relative paths -/

theorem relativePath_singleton (name : String) : relativePath [name] = name := by
  simp [relativePath]

theorem relativePath_concat (hne : names ≠ []) (name : String) :
    relativePath (names ++ [name]) = relativePath names ++ "/" ++ name := by
  rw [relativePath, String.intercalate_append_of_ne_nil hne (List.cons_ne_nil _ _)]
  simp [relativePath]

theorem relativePath_ne_empty (hne : names ≠ []) (hnames : ∀ a ∈ names, IsName a) :
    relativePath names ≠ "" := by
  obtain ⟨init, last, rfl⟩ := (List.eq_nil_or_concat' names).resolve_left hne
  have hlast := (hnames last (by simp)).plain.1
  rcases eq_or_ne init [] with rfl | hinit
  · rwa [List.nil_append, relativePath_singleton]
  · rw [relativePath_concat hinit]
    simp [hlast]

theorem hasFinalSlash_relativePath (hne : names ≠ []) (hnames : ∀ a ∈ names, IsName a) :
    Path.hasFinalSlash (relativePath names) = false := by
  obtain ⟨init, last, rfl⟩ := (List.eq_nil_or_concat' names).resolve_left hne
  have hlast := hnames last (by simp)
  rw [← Path.hasFinalSlash_of_noSlash hlast.noSlash]
  rcases eq_or_ne init [] with rfl | hinit
  · rw [List.nil_append, relativePath_singleton]
  · rw [relativePath_concat hinit, Path.hasFinalSlash_append hlast.plain.1]

/-- A relative path leads along its names one after the other. -/
theorem join_relativePath (d : String) (hne : names ≠ []) (hnames : ∀ a ∈ names, IsName a) :
    join d (relativePath names) = joinAll d names := by
  induction names using List.reverseRecOn with
  | nil => exact absurd rfl hne
  | append_singleton init last ih =>
    rcases eq_or_ne init [] with rfl | hinit
    · rw [List.nil_append, relativePath_singleton]
      rfl
    · have hstart (a : String) (ha : a ∈ init) := hnames a (List.mem_append_left _ ha)
      have hrelative := relativePath_ne_empty hinit hstart
      have hslash : Path.hasFinalSlash (join d (relativePath init)) = false := by
        rw [Path.hasFinalSlash_join hrelative, hasFinalSlash_relativePath hinit hstart]
      rw [relativePath_concat hinit, Path.joinAll_append, ← ih hinit hstart,
        Path.join_of_noFinalSlash (Path.join_ne_empty hrelative) hslash (hnames last (by simp)),
        String.append_assoc, Path.join_append hrelative, String.append_assoc]

/-! ## Lowered paths -/

theorem mem_of_mem_stem {name : List Char} {c : Char} (h : c ∈ (Path.divideName name).1) :
    c ∈ name := by
  unfold Path.divideName at h
  split at h
  · rename_i hsplit
    rw [(Text.eq_of_splitLast?_eq_some hsplit).1]
    exact List.mem_append_left _ h
  · exact h

theorem isName_loweredName {name : String} (h : IsName name) :
    IsName (String.ofList (loweredName name.toList)) := by
  have hlast : 'm' ∈ (String.ofList (loweredName name.toList)).toList := by
    simp [loweredName, Stage.schemaExtension]
  refine ⟨⟨?_, ?_, ?_⟩, fun hslash => ?_⟩
  · exact fun heq => by simp [heq] at hlast
  · exact fun heq => by simp [heq] at hlast
  · exact fun heq => by simp [heq] at hlast
  · rw [String.toList_ofList, loweredName, List.mem_append] at hslash
    rcases hslash with hstem | hextension
    · exact h.noSlash (mem_of_mem_stem hstem)
    · simp [Stage.schemaExtension] at hextension

theorem loweredPath_relativePath {init : List String} {last : String}
    (hlast : IsName last) : loweredPath (relativePath (init ++ [last]))
      = relativePath (init ++ [String.ofList (loweredName last.toList)]) := by
  rcases eq_or_ne init [] with rfl | hinit
  · simp only [List.nil_append, relativePath_singleton, loweredPath,
      Text.splitLast?_eq_none_iff.mpr hlast.noSlash]
  · rw [relativePath_concat hinit, relativePath_concat hinit]
    have hparts : (relativePath init ++ "/" ++ last).toList
        = (relativePath init).toList ++ '/' :: last.toList := by simp
    simp only [loweredPath, hparts, Text.splitLast?_append hlast.noSlash]
    rw [← String.toList_inj]
    simp

/-- The schema that a source is lowered to is below the workspace. -/
theorem exists_loweredFile_eq (hne : names ≠ []) (hnames : ∀ a ∈ names, IsName a) :
    ∃ below last, (∀ a ∈ below ++ [last], IsName a) ∧
      ∀ (workspace : String) (file : Candidate), file.relative = relativePath names →
        loweredFile workspace file = joinAll workspace (below ++ [last]) := by
  obtain ⟨init, last, rfl⟩ := (List.eq_nil_or_concat' names).resolve_left hne
  have hlast := hnames last (by simp)
  have hlowered : ∀ a ∈ init ++ [String.ofList (loweredName last.toList)], IsName a := by
    intro a ha
    rcases List.mem_append.mp ha with ha | ha
    · exact hnames a (List.mem_append_left _ ha)
    · exact List.mem_singleton.mp ha ▸ isName_loweredName hlast
  refine ⟨init, _, hlowered, fun workspace file hfile => ?_⟩
  rw [loweredFile, hfile, loweredPath_relativePath hlast,
    join_relativePath workspace (by simp) hlowered]

/-! ## Discovery -/

/-- A source that a discovery finds: a file below the source directory, or a link to one. -/
structure IsSource (t : FileTree) (root : String) (file : Candidate) (names : List String)
    (l : Location) (entry : Entry) : Prop where
  leads : t.locate .target root = .ok l
  below : (names, entry) ∈ t.below l
  isFile : t.isWalkedFile (joinAll root names) entry = .ok true
  relative : file.relative = relativePath names
  path : file.path = joinAll root names

theorem exists_locate_of_isFile {path : String} (h : t.isFile path) :
    ∃ l, t.locate .target path = .ok l ∧ t.IsFileAt l := by
  rw [isFile] at h
  split at h
  · rename_i content modified hfind
    obtain ⟨l, hl, hentry⟩ := Except.bind_eq_ok_iff.mp hfind
    refine ⟨l, hl, content, modified, ?_⟩
    split at hentry <;> simp_all
  · simp at h

/-- Where a source can be found in a later tree, it has been found from the start. -/
theorem IsSource.locate_eq (ht : t.WellFormed) {root : String} {file : Candidate} {l m : Location}
    {entry : Entry} {area : Location → Prop} (h : IsSource t root file names l entry)
    (hgrows : Grows area t u) (hm : u.locate .target file.path = .ok m) :
    t.locate .target file.path = .ok m ∧ t.IsFileAt m := by
  obtain ⟨hcheck, way, hway⟩ := locate_eq_ok_iff.mp hm
  obtain ⟨hne, hnames, hentry, hreached⟩ := ht.of_mem_below h.below
  obtain ⟨k, hk, hfile⟩ : ∃ k, t.locate .target file.path = .ok k ∧ t.IsFileAt k := by
    have hisFile := h.isFile
    cases entry with
    | file content modified =>
      have hdirectory : t.entryAt? l = some .directory := by
        cases names with
        | nil => exact absurd rfl hne
        | cons => exact isDirectoryAt_iff.mp (Bool.and_eq_true_iff.mp hreached).1
      have hshort : ∀ a ∈ names, a.utf8ByteSize ≤ maxNameSize := by
        rw [h.path, Path.steps_joinAll hne hnames] at hway
        exact fun a ha => hway.short a (List.mem_append_right _ ha) (hnames a ha).plain
      refine ⟨l ++ names, ?_, content, modified, hentry⟩
      rw [h.path] at hcheck ⊢
      exact ht.locate_joinAll h.leads hdirectory hne hnames hshort hcheck hreached
        (.inl ⟨content, modified, hentry⟩)
    | directory =>
      rw [isWalkedFile_directory] at hisFile
      cases hfind : t.find (joinAll root names) <;> simp [hfind, Except.map] at hisFile
    | link target =>
      rw [← h.path, isWalkedFile_link] at hisFile
      exact exists_locate_of_isFile (Except.ok.inj hisFile)
  have hlater := hgrows.locate_eq hk hfile
  obtain rfl := Except.ok.inj (hm.symm.trans hlater)
  exact ⟨hk, hfile⟩

theorem exists_of_mem_filesBelow {root : String} {files : List (List String)}
    (h : t.filesBelow root = .ok files) (hnames : names ∈ files) :
    ∃ l entry, t.locate .target root = .ok l ∧ (names, entry) ∈ t.below l ∧
      t.isWalkedFile (joinAll root names) entry = .ok true := by
  rw [filesBelow] at h
  obtain ⟨l, hl, h⟩ := Except.bind_eq_ok_iff.mp h
  obtain ⟨found, hfound, hfiles⟩ := Except.bind_eq_ok_iff.mp h
  obtain rfl := Except.ok.inj hfiles
  obtain ⟨isFile, htest, rfl⟩ := filterM_eq_ok_iff.mp hfound
  obtain ⟨⟨_, entry⟩, hmem, rfl⟩ := List.mem_map.mp hnames
  obtain ⟨hwalk, hfile⟩ := List.mem_filter.mp hmem
  exact ⟨l, entry, eq_ok_of_mapError hl, (List.mem_filter.mp hwalk).1, hfile ▸ htest _ hwalk⟩

theorem mem_candidates_iff {root : String} {includes excludes : List Glob.Pattern}
    {files : List (List String)} {file : Candidate} :
    file ∈ candidates root includes excludes files ↔ ∃ names ∈ files,
      isSelected includes excludes (relativePath names) ∧
        file = ⟨relativePath names, joinAll root names⟩ := by
  simp only [candidates, List.mem_mergeSort, List.mem_map, List.mem_filter, and_assoc, eq_comm]

/-- A request that only looks at files. -/
def IsLook : Request → Prop
  | .isDirectory _ | .filesBelow _ | .contents _ | .readText _ => True
  | _ => False

theorem eq_of_isLook (r : Request) (t : FileTree) (h : IsLook r) : (serve r t).2 = t := by
  cases r <;> first | rfl | cases h

theorem asks_discover (root : String) (selection : Selection) :
    (discover root selection).outcome.Asks IsLook := by
  refine Attempt.asks_bind (Attempt.asks_lift (Work.asks_request trivial)) fun present => ?_
  cases present with
  | false => exact Attempt.asks_pure _
  | true =>
    refine Attempt.asks_bind (Attempt.asks_ofResult _) fun includes => ?_
    refine Attempt.asks_bind (Attempt.asks_ofResult _) fun excludes => ?_
    refine Attempt.asks_bind (Attempt.asks_of (Work.asks_request trivial)) fun files => ?_
    exact Attempt.asks_pure _

/-- What a discovery finds are sources. -/
theorem of_does_discover {root : String} {selection : Selection} {files : List Candidate}
    (h : (discover root selection).outcome.Does serve t asked (.ok files) u) :
    ∀ file ∈ files, ∃ names l entry, IsSource t root file names l entry := by
  obtain ⟨_, present, s₁, _, -, hpresent, h₁⟩ := Attempt.of_does_lift_bind h
  obtain rfl : t = s₁ :=
    (hpresent.unique (Work.does_request serve (.isDirectory root) t)).2.2.symm
  cases present with
  | false =>
    obtain ⟨-, ⟨⟩, -⟩ := h₁.unique (Attempt.does_pure serve _ _)
    simp
  | true =>
    rcases Attempt.of_does_bind h₁ with ⟨_, ⟨⟩, -⟩ | ⟨_, includes, s₂, _, -, hincludes, h₂⟩
    obtain rfl : t = s₂ := (Attempt.of_does_ofResult hincludes).2.2.symm
    rcases Attempt.of_does_bind h₂ with ⟨_, ⟨⟩, -⟩ | ⟨_, excludes, s₃, _, -, hexcludes, h₃⟩
    obtain rfl : t = s₃ := (Attempt.of_does_ofResult hexcludes).2.2.symm
    rcases Attempt.of_does_bind h₃ with ⟨_, ⟨⟩, -⟩ | ⟨_, found, s₄, _, -, hfound, h₄⟩
    obtain ⟨-, ⟨⟩, -⟩ := h₄.unique (Attempt.does_pure serve _ _)
    obtain ⟨-, hfiles, -⟩ := (Attempt.of_does_of_ok hfound).of_request
    have hok : t.filesBelow root = .ok found := hfiles.symm
    intro file hfile
    obtain ⟨names, hnames, -, rfl⟩ := mem_candidates_iff.mp hfile
    obtain ⟨l, entry, hl, hbelow, hisFile⟩ := exists_of_mem_filesBelow hok hnames
    exact ⟨names, l, entry, hl, hbelow, hisFile, rfl, rfl⟩

end IdlCompiler.Build
