/-
# Which sources are definitions

Two rules tell that a file is an interface definition.  Discovery looks for files with a pattern,
which speaks of how a path ends.  The stage of a file goes by its extension, and an extension has
something in front of its dot: a hidden file has none, even if its name is a dot and the word for
interface definitions.  The two rules agree on every file that can be found, except for a file of
that name, which is found and then taken for a schema.

Main statements: `matches_definitionPattern_iff` and `ofPath_append_iff`, each rule by the last name
of a path; and `ofPath_of_discovered`.
-/
import IdlCompiler.Proofs.Discoveries
import IdlCompiler.Proofs.LoweredPaths
import IdlCompiler.Proofs.Outputs
import IdlCompiler.Proofs.PatternMatches

namespace IdlCompiler.Build

open FileTree
open IdlCompiler.Path (IsName)

variable {t : FileTree} {path start name root : String} {selection : Selection}
  {files : List Candidate}

/-- The pattern by which interface definitions are looked for. -/
def definitionPattern : String := "**/*." ++ Stage.definitionExtension

/-- The name of a hidden file that ends like an interface definition. -/
def hiddenName : String := "." ++ Stage.definitionExtension

theorem toList_hiddenName : hiddenName.toList = '.' :: Stage.definitionExtension.toList := by
  decide

theorem definitionPattern_mem : definitionPattern ∈ defaultIncludes := by
  simp [defaultIncludes, definitionPattern]

/-! ## The pattern -/

theorem isPattern_definitionPattern :
    Glob.IsPattern definitionPattern (Glob.endingPattern hiddenName.toList) := by
  have htrimmed : Glob.trimmed definitionPattern = ['*', '*', '/', '*', '.', 'i', 'd', 'l'] := by
    decide
  refine ⟨by simp [htrimmed], ?_⟩
  rw [htrimmed, Glob.Pattern.ofText, String.toList_ofList]
  rfl

theorem matches_definitionPattern_iff (path : String) :
    Glob.Matches definitionPattern path ↔ hiddenName.toList <:+ path.toList := by
  have hascii : ∀ c ∈ hiddenName.toList, c.toNat < 128 := by
    simp [toList_hiddenName, Stage.definitionExtension]
  rw [← Glob.isMatch_endingPattern_iff hascii]
  constructor
  · rintro ⟨pattern, ⟨-, hpattern⟩, hmatch⟩
    obtain rfl := Except.ok.inj (isPattern_definitionPattern.2.symm.trans hpattern)
    exact hmatch
  · exact fun hmatch => ⟨_, isPattern_definitionPattern, hmatch⟩

/-- An ending without a slash is one of the last name. -/
theorem suffix_append_iff {ending : List Char} (hending : '/' ∉ ending)
    (hstart : start = "" ∨ Path.hasFinalSlash start) :
    ending <:+ (start ++ name).toList ↔ ending <:+ name.toList := by
  rw [String.toList_append]
  refine ⟨fun h => ?_, fun h => h.trans (List.suffix_append ..)⟩
  rcases hstart with rfl | hstart
  · simpa using h
  obtain ⟨front, rfl⟩ := Path.exists_eq_append_slash hstart
  have hwhole : (front ++ "/").toList ++ name.toList = front.toList ++ '/' :: name.toList := by simp
  rw [hwhole] at h
  rcases Nat.lt_or_ge name.toList.length ending.length with hlt | hle
  · have hslash : '/' :: name.toList <:+ ending :=
      List.suffix_of_suffix_length_le (List.suffix_append ..) h hlt
    exact absurd (hslash.subset List.mem_cons_self) hending
  · refine List.suffix_of_suffix_length_le h ?_ hle
    exact (List.suffix_cons ..).trans (List.suffix_append ..)

/-! ## The stage -/

/-- The extension of a file, by its last name. -/
theorem extension?_append (hname : IsName name) (hstart : start = "" ∨ Path.hasFinalSlash start) :
    Path.extension? (start ++ name) = (Path.divideName name.toList).2.map String.ofList := by
  rw [Path.extension?, fileName?_append hname hstart, Option.bind_some]

/-- A name has an extension if something stands in front of its dot. -/
theorem divideName_eq_some_iff {name extension : List Char} (h : '.' ∉ extension) :
    (Path.divideName name).2 = some extension ↔
      '.' :: extension <:+ name ∧ name ≠ '.' :: extension := by
  constructor
  · intro hsome
    obtain ⟨hname, hstem, -⟩ := Path.divideName_eq (Prod.ext rfl hsome)
    rw [hname]
    exact ⟨List.suffix_append .., by simpa using hstem⟩
  · rintro ⟨⟨stem, rfl⟩, hne⟩
    rw [Path.divideName_append (by rintro rfl; exact hne rfl) h]

theorem ofPath_append_iff (hname : IsName name) (hstart : start = "" ∨ Path.hasFinalSlash start) :
    Stage.ofPath (start ++ name) = .interfaceDefinition ↔
      hiddenName.toList <:+ name.toList ∧ name ≠ hiddenName := by
  have hdivided : (Path.divideName name.toList).2 = some Stage.definitionExtension.toList ↔ _ :=
    divideName_eq_some_iff (by decide)
  rw [← toList_hiddenName, Ne, String.toList_inj] at hdivided
  rw [← hdivided, Stage.ofPath, extension?_append hname hstart]
  split
  · rename_i h
    obtain ⟨extension, hextension, heq⟩ := Option.map_eq_some_iff.1 h
    simp [hextension, ← heq]
  · rename_i h
    simp only [reduceCtorEq, false_iff]
    exact fun hextension => h (by rw [hextension]; simp)

theorem divideName_fst_ne_nil {name : List Char} (h : name ≠ []) :
    (Path.divideName name).1 ≠ [] := by
  unfold Path.divideName
  split
  · exact List.cons_ne_nil _ _
  · exact h

/-- The schema of a definition is no definition. -/
theorem ofPath_loweredPath (hpath : EndsInName path) :
    Stage.ofPath (loweredPath path) = .canonicalSchema := by
  obtain ⟨start, name, rfl, hname, hstart⟩ := hpath
  have hextension : (Path.divideName (loweredName name.toList)).2 =
      some Stage.schemaExtension.toList := by
    have hne : name.toList ≠ [] := mt String.toList_eq_nil_iff.1 hname.plain.1
    rw [loweredName, Path.divideName_append (divideName_fst_ne_nil hne) (by decide)]
  rw [loweredPath_append hname hstart, Stage.ofPath,
    extension?_append (isName_loweredName hname) hstart, String.toList_ofList, hextension]
  decide

/-! ## Both rules -/

/-- The two rules disagree on the name of a hidden file only. -/
theorem matches_definitionPattern_iff_ofPath (hpath : EndsInName path)
    (hname : Path.fileName? path ≠ some hiddenName) :
    Glob.Matches definitionPattern path ↔ Stage.ofPath path = .interfaceDefinition := by
  obtain ⟨start, name, rfl, hisName, hstart⟩ := hpath
  rw [fileName?_append hisName hstart, Ne, Option.some.injEq] at hname
  rw [matches_definitionPattern_iff, ofPath_append_iff hisName hstart,
    suffix_append_iff (by decide) hstart]
  simp [hname]

theorem matches_and_ofPath_of_hiddenName (hpath : EndsInName path)
    (hname : Path.fileName? path = some hiddenName) :
    Glob.Matches definitionPattern path ∧ Stage.ofPath path = .canonicalSchema := by
  obtain ⟨start, name, rfl, hisName, hstart⟩ := hpath
  rw [fileName?_append hisName hstart, Option.some.injEq] at hname
  subst hname
  rw [matches_definitionPattern_iff, suffix_append_iff (by decide) hstart]
  refine ⟨List.suffix_rfl, ?_⟩
  cases hstage : Stage.ofPath (start ++ hiddenName) with
  | canonicalSchema => rfl
  | interfaceDefinition => exact absurd rfl ((ofPath_append_iff hisName hstart).1 hstage).2

/-- **Discovery and stages agree except on one name.**  A file that a discovery finds is matched by
the pattern for interface definitions exactly if it is at their stage, unless its last name is a
dot and their extension: such a file is matched and at the other stage.  A definition is lowered to
the path with the other extension in the place of its own, which is a schema. -/
theorem ofPath_of_discovered (ht : t.WellFormed)
    (hfound : ((discover root selection).outcome.run serve t).1 = .ok files) {file : Candidate}
    (hfile : file ∈ files) :
    (Path.fileName? file.relative ≠ some hiddenName →
      (Glob.Matches definitionPattern file.relative ↔
        Stage.ofPath file.relative = .interfaceDefinition)) ∧
    (Path.fileName? file.relative = some hiddenName →
      Glob.Matches definitionPattern file.relative ∧
        Stage.ofPath file.relative = .canonicalSchema) ∧
    (Stage.ofPath file.relative = .interfaceDefinition →
      (∃ stem, file.relative = stem ++ ".idl" ∧ loweredPath file.relative = stem ++ ".schema") ∧
        Stage.ofPath (loweredPath file.relative) = .canonicalSchema) := by
  have hdoes := Work.does_self serve (discover root selection).outcome t
  rw [hfound] at hdoes
  obtain ⟨names, l, entry, hsource⟩ := of_does_discover hdoes file hfile
  obtain ⟨hne, hnames, -⟩ := ht.of_mem_below hsource.below
  have hpath : EndsInName file.relative := hsource.relative ▸ endsInName_relativePath hne hnames
  exact ⟨matches_definitionPattern_iff_ofPath hpath, matches_and_ofPath_of_hiddenName hpath,
    fun hstage => ⟨exists_stem hpath hstage, ofPath_loweredPath hpath⟩⟩

/-! ## A tree with a hidden file -/

/-- A tree with a definition whose directory has a dot in its name, and a hidden file. -/
def hiddenTree : FileTree where
  entries := [(["src"], .directory), (["src", ".idl"], .file "protocol A \x7b\x7d".toUTF8 0),
    (["src", "v1.d"], .directory),
    (["src", "v1.d", "b.c.idl"], .file "protocol B \x7b\x7d".toUTF8 0)]

theorem wellFormed_hiddenTree : hiddenTree.WellFormed :=
  wellFormed_of_hasRoom (by decide +kernel)

theorem filesBelow_hiddenTree :
    hiddenTree.filesBelow "src" = .ok [[".idl"], ["v1.d", "b.c.idl"]] := by
  have hroot : hiddenTree.locate .target "src" = .ok ["src"] := rfl
  have hbelow : hiddenTree.below ["src"] =
      [([".idl"], Entry.file "protocol A \x7b\x7d".toUTF8 0), (["v1.d"], Entry.directory),
        (["v1.d", "b.c.idl"], Entry.file "protocol B \x7b\x7d".toUTF8 0)].mergeSort
          fun a b => namesLe a.1 b.1 := rfl
  have hle : namesLe [".idl"] ["v1.d"] ∧ namesLe [".idl"] ["v1.d", "b.c.idl"] ∧
      namesLe ["v1.d"] ["v1.d", "b.c.idl"] := by decide
  rw [List.mergeSort_of_pairwise (by simp [hle])] at hbelow
  simp only [filesBelow, hroot, walkBelow, hbelow, mapError_ok, bind, Except.bind]
  rfl

/-- What is found in `hiddenTree`. -/
theorem exists_run_discover_hiddenTree : ∃ files,
    ((discover "src" {}).outcome.run serve hiddenTree).1 = .ok files ∧
      ⟨".idl", "src/.idl"⟩ ∈ files ∧ ⟨"v1.d/b.c.idl", "src/v1.d/b.c.idl"⟩ ∈ files := by
  have hread : ((Glob.readAll defaultIncludes).toOption.map fun includes =>
      (isSelected includes [] (relativePath [".idl"]),
        isSelected includes [] (relativePath ["v1.d", "b.c.idl"]))) =
      some (true, true) := by decide +kernel
  obtain ⟨includes, hincludes, hselected⟩ := Option.map_eq_some_iff.mp hread
  obtain ⟨hhidden, hplain⟩ := Prod.mk.inj hselected
  have hincludes : Glob.readAll (Selection.effectiveIncludes {}) = .ok includes :=
    eq_ok_of_toOption hincludes
  refine ⟨_, congrArg Prod.fst (does_discover hincludes rfl rfl filesBelow_hiddenTree).run, ?_, ?_⟩
  · exact mem_candidates_iff.2 ⟨_, List.mem_cons_self, hhidden, by decide⟩
  · exact mem_candidates_iff.2 ⟨_, by simp, hplain, by decide⟩

/-- The two rules agree on the definition in `hiddenTree`. -/
theorem hiddenTree_has_definition : hiddenTree.WellFormed ∧ ∃ files,
    ((discover "src" {}).outcome.run serve hiddenTree).1 = .ok files ∧
      ∃ file ∈ files, file.relative = "v1.d/b.c.idl" ∧
        Glob.Matches definitionPattern file.relative ∧
        Stage.ofPath (loweredPath file.relative) = .canonicalSchema := by
  obtain ⟨files, hfound, -, hmem⟩ := exists_run_discover_hiddenTree
  obtain ⟨hagree, -, hlower⟩ := ofPath_of_discovered wellFormed_hiddenTree hfound hmem
  have hstage : Stage.ofPath "v1.d/b.c.idl" = .interfaceDefinition := by decide
  exact ⟨wellFormed_hiddenTree, files, hfound, _, hmem, rfl, (hagree (by decide)).2 hstage,
    (hlower hstage).2⟩

/-- A hidden file is found as a definition and taken for a schema. -/
theorem hiddenFile_is_taken_for_schema : hiddenTree.WellFormed ∧ ∃ files,
    ((discover "src" {}).outcome.run serve hiddenTree).1 = .ok files ∧ ∃ file ∈ files,
      Glob.Matches definitionPattern file.relative ∧
        Stage.ofPath file.relative ≠ .interfaceDefinition := by
  obtain ⟨files, hfound, hmem, -⟩ := exists_run_discover_hiddenTree
  refine ⟨wellFormed_hiddenTree, files, hfound, _, hmem, ?_, by decide⟩
  exact (matches_definitionPattern_iff _).2 (by decide)

end IdlCompiler.Build
