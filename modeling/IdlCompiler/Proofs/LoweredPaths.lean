/-
# The paths of lowered schemas

The schema of an interface definition has the path of its source with another extension.  The
schemas of different definitions have different paths.  But where sources stand in one tree their
schemas need not: the schema of one can have the name of a directory that another source is in.
This is the only way for schemas to be in each other's way.

Main statements: `exists_stem`, the two paths differ in their extensions only, and
`coexist_loweredPath_iff`, when all schemas can stand in one tree.
-/
import IdlCompiler.Proofs.Sources

namespace IdlCompiler.Build

open IdlCompiler.Path (IsName)

variable {path start name : String} {names names' : List String} {paths : List String}

/-! ## Files in one tree -/

/-- A path is one of a file: the text behind its last slash is a name. -/
def EndsInName (path : String) : Prop :=
  ∃ start name, path = start ++ name ∧ IsName name ∧ (start = "" ∨ Path.hasFinalSlash start)

/-- The first path leads to what the second one has for a directory. -/
def LeadsAbove (path other : String) : Prop := (path ++ "/").toList <+: other.toList

/-- Files can stand in one tree: their paths differ, and none leads above another one. -/
structure Coexist (paths : List String) : Prop where
  nodup : paths.Nodup
  apart : ∀ p ∈ paths, ∀ q ∈ paths, ¬ LeadsAbove p q

theorem endsInName_relativePath (hne : names ≠ []) (hnames : ∀ a ∈ names, IsName a) :
    EndsInName (relativePath names) := by
  obtain ⟨init, last, rfl⟩ := (List.eq_nil_or_concat' names).resolve_left hne
  have hlast := hnames last (by simp)
  rcases eq_or_ne init [] with rfl | hinit
  · exact ⟨"", last, by simp [relativePath_singleton], hlast, .inl rfl⟩
  · refine ⟨relativePath init ++ "/", last, relativePath_concat hinit last, hlast, .inr ?_⟩
    simp [Path.hasFinalSlash]

/-- The names of one path are the first of the names of another one. -/
theorem leadsAbove_relativePath_iff (hne : names ≠ []) (hne' : names' ≠ [])
    (hnames : ∀ a ∈ names, IsName a) (hnames' : ∀ a ∈ names', IsName a) :
    LeadsAbove (relativePath names) (relativePath names') ↔ names <+: names' ∧ names ≠ names' := by
  have hraw (ns : List String) (hne : ns ≠ []) (hns : ∀ a ∈ ns, IsName a) :
      Path.rawNames (relativePath ns) = ns :=
    Path.rawNames_intercalate hne fun a ha => (hns a ha).noSlash
  constructor
  · rintro ⟨rest, hrest⟩
    have heq : relativePath names' = relativePath names ++ "/" ++ String.ofList rest := by
      rw [← String.toList_inj, String.toList_append, String.toList_ofList, hrest]
    have hsplit := congrArg Path.rawNames heq
    rw [Path.rawNames_append_slash, hraw _ hne hnames, hraw _ hne' hnames'] at hsplit
    refine ⟨hsplit ▸ List.prefix_append .., fun hsame => ?_⟩
    have hrestNames : Path.rawNames (String.ofList rest) ≠ [] := by
      simp [Path.rawNames, Text.splitOn_ne_nil]
    rw [← hsame] at hsplit
    exact hrestNames (List.self_eq_append_right.mp hsplit)
  · rintro ⟨⟨more, rfl⟩, hmore⟩
    have hmore : more ≠ [] := by
      rintro rfl
      exact hmore (List.append_nil names).symm
    have heq : relativePath (names ++ more) = relativePath names ++ "/" ++ relativePath more :=
      String.intercalate_append_of_ne_nil hne hmore
    rw [LeadsAbove, heq, String.toList_append (s := relativePath names ++ "/")]
    exact List.prefix_append ..

/-! ## The extension of a path -/

theorem fileName?_append (hname : IsName name) (hstart : start = "" ∨ Path.hasFinalSlash start) :
    Path.fileName? (start ++ name) = some name := by
  obtain ⟨before, hraw⟩ : ∃ before, Path.rawNames (start ++ name) = before ++ [name] := by
    rcases hstart with rfl | hstart
    · exact ⟨[], by simp [Path.rawNames_of_noSlash hname.noSlash]⟩
    · obtain ⟨front, rfl⟩ := Path.exists_eq_append_slash hstart
      exact ⟨_, by rw [Path.rawNames_append_slash, Path.rawNames_of_noSlash hname.noSlash]⟩
  have hlast : (Path.names (start ++ name)).getLast? = some name := by
    simp [Path.names, hraw, hname.plain.1, hname.plain.2.1]
  unfold Path.fileName?
  rw [hlast]
  split
  · rename_i heq
    exact absurd (Option.some.inj heq) hname.plain.2.2
  · contradiction
  · rename_i heq
    exact heq.symm

theorem loweredPath_append (hname : IsName name) (hstart : start = "" ∨ Path.hasFinalSlash start) :
    loweredPath (start ++ name) = start ++ String.ofList (loweredName name.toList) := by
  rcases hstart with rfl | hstart
  · simp only [String.empty_append, loweredPath, Text.splitLast?_eq_none_iff.mpr hname.noSlash]
  · obtain ⟨front, rfl⟩ := Path.exists_eq_append_slash hstart
    have hparts : (front ++ "/" ++ name).toList = front.toList ++ '/' :: name.toList := by simp
    simp only [loweredPath, hparts, Text.splitLast?_append hname.noSlash]
    rw [← String.toList_inj]
    simp

/-- **A definition and its schema have paths with one stem**, and only their extensions differ. -/
theorem exists_stem (hpath : EndsInName path)
    (hstage : Stage.ofPath path = .interfaceDefinition) :
    ∃ stem, path = stem ++ ".idl" ∧ loweredPath path = stem ++ ".schema" := by
  obtain ⟨start, name, rfl, hname, hstart⟩ := hpath
  have hextension : Path.extension? (start ++ name) = some Stage.definitionExtension := by
    by_contra hother
    rw [Stage.ofPath, if_neg hother] at hstage
    simp at hstage
  rw [Path.extension?, fileName?_append hname hstart, Option.bind_some,
    Option.map_eq_some_iff] at hextension
  obtain ⟨extension, hdivided, hextension⟩ := hextension
  obtain rfl : extension = Stage.definitionExtension.toList := by
    rw [← hextension, String.toList_ofList]
  obtain ⟨hsplit, -, -⟩ := Path.divideName_eq (Prod.ext rfl hdivided)
  refine ⟨start ++ String.ofList (Path.divideName name.toList).1, ?_, ?_⟩
  · rw [← String.toList_inj]
    simpa [Stage.definitionExtension] using hsplit
  · rw [loweredPath_append hname hstart, ← String.toList_inj]
    simp [loweredName, Stage.schemaExtension]

/-- Different definitions have schemas with different paths. -/
theorem loweredPath_inj {path' : String} (hpath : EndsInName path) (hpath' : EndsInName path')
    (hstage : Stage.ofPath path = .interfaceDefinition)
    (hstage' : Stage.ofPath path' = .interfaceDefinition)
    (heq : loweredPath path = loweredPath path') : path = path' := by
  obtain ⟨stem, hstem, hlowered⟩ := exists_stem hpath hstage
  obtain ⟨stem', hstem', hlowered'⟩ := exists_stem hpath' hstage'
  rw [hlowered, hlowered', ← String.toList_inj, String.toList_append, String.toList_append] at heq
  rw [hstem, hstem', String.toList_inj.mp (List.append_cancel_right heq)]

/-! ## Schemas in one tree -/

/-- A front part of a text that ends with a separator ends before what has no separator. -/
theorem prefix_append_iff_of_notMem {sep : Char} {front cs ds : List Char} (hds : sep ∉ ds) :
    front ++ [sep] <+: cs ++ ds ↔ front ++ [sep] <+: cs := by
  refine ⟨fun h => ?_, fun h => h.trans (List.prefix_append ..)⟩
  rcases Nat.le_total (front ++ [sep]).length cs.length with hle | hle
  · exact List.prefix_of_prefix_length_le h (List.prefix_append ..) hle
  · obtain ⟨more, hmore⟩ := List.prefix_of_prefix_length_le (List.prefix_append cs ds) h hle
    rcases List.eq_nil_or_concat' more with rfl | ⟨init, last, rfl⟩
    · rw [List.append_nil] at hmore
      exact hmore ▸ List.prefix_rfl
    · rw [← List.append_assoc] at hmore
      obtain rfl : last = sep := List.singleton_inj.mp (List.append_inj_right' hmore rfl)
      rw [← hmore, List.append_assoc, List.prefix_append_right_inj] at h
      exact absurd (h.subset (by simp)) hds

/-- A schema is in the way of another schema where it is in the way of the other source. -/
theorem leadsAbove_loweredPath_iff {other : String} (hpath : EndsInName path)
    (hstage : Stage.ofPath path = .interfaceDefinition) :
    LeadsAbove other (loweredPath path) ↔ LeadsAbove other path := by
  obtain ⟨stem, hstem, hlowered⟩ := exists_stem hpath hstage
  have hother : (other ++ "/").toList = other.toList ++ ['/'] := by simp
  rw [LeadsAbove, LeadsAbove, hlowered, hother, String.toList_append,
    prefix_append_iff_of_notMem (by decide)]
  conv_rhs => rw [hstem, String.toList_append, prefix_append_iff_of_notMem (by decide)]

/-- **The schemas of definitions that stand in one tree have different paths**, and they can stand
in one tree unless one of them has the name of a directory that a source is in. -/
theorem coexist_loweredPath_iff (hpaths : ∀ p ∈ paths, EndsInName p)
    (hstages : ∀ p ∈ paths, Stage.ofPath p = .interfaceDefinition) (h : Coexist paths) :
    (paths.map loweredPath).Nodup ∧
      (Coexist (paths.map loweredPath) ↔
        ∀ p ∈ paths, ∀ q ∈ paths, ¬ LeadsAbove (loweredPath p) q) := by
  have hnodup : (paths.map loweredPath).Nodup := h.nodup.map_on fun p hp q hq =>
    loweredPath_inj (hpaths p hp) (hpaths q hq) (hstages p hp) (hstages q hq)
  have hapart (p : String) {q : String} (hq : q ∈ paths) :
      LeadsAbove (loweredPath p) (loweredPath q) ↔ LeadsAbove (loweredPath p) q :=
    leadsAbove_loweredPath_iff (hpaths q hq) (hstages q hq)
  refine ⟨hnodup, fun hlowered p hp q hq => ?_, fun hclear => ⟨hnodup, ?_⟩⟩
  · rw [← hapart p hq]
    exact hlowered.apart _ (List.mem_map_of_mem hp) _ (List.mem_map_of_mem hq)
  · intro _ hlowered _ hlowered'
    obtain ⟨p, hp, rfl⟩ := List.mem_map.mp hlowered
    obtain ⟨q, hq, rfl⟩ := List.mem_map.mp hlowered'
    rw [hapart p hq]
    exact hclear p hp q hq

end IdlCompiler.Build
