/-
# Variants of generated enums

The check of a protocol tells the branches of a union apart by their kinds and by the full names of
their types.  Generated code calls a branch by a word for its kind, or by the simple name of its
type spelled with capitals, so that types of one simple name in two namespaces come out alike, and a
type can be called like a kind.  The variants of the error type, as its code declares them, are the
names of the errors of all messages, each once, and one for every other failure.

Main statements: a name in generated code is read off the reference, whatever type is found for it
(`Protocol.WellFormed.referenceName_eq`); what the code of the error type declares
(`Target.Service.shows_errorText`); the exact conditions under which the variants differ, for each
union at any depth and for the error type (`Target.variants_apart_iff`); and a discipline for the
names of types that meets them (`Protocol.HasPlainTypes`).
-/
import IdlCompiler.Proofs.EnumLines
import IdlCompiler.Proofs.Spelling

namespace IdlCompiler

/-! ## Simple names -/

namespace Target

/-- A name of letters and digits that starts with no small letter is spelled as it is. -/
theorem Name.pascalCase_eq_self {name : String} (h : Name.IsCapitalized name) :
    Name.pascalCase name = name := by
  have hsep : ∀ {c : Char}, c.isAlphanum → ¬ (c = '_' || c = '-') := by
    intro c hc hsep
    obtain rfl | rfl : c = '_' ∨ c = '-' := by simpa using hsep
    · exact absurd hc (by decide)
    · exact absurd hc (by decide)
  have hrest : ∀ cs : List Char, (∀ c ∈ cs, c.isAlphanum) → Name.pascalChars false cs = cs := by
    intro cs hcs
    induction cs with
    | nil => rfl
    | cons c cs ih =>
      obtain ⟨hc, hcs⟩ := List.forall_mem_cons.1 hcs
      rw [Name.pascalChars, if_neg (hsep hc), ih hcs]
      rfl
  have hpart := h.isPart
  obtain ⟨hall, hhead⟩ := h
  rw [Name.pascalCase]
  cases hcs : name.toList with
  | nil => rw [← String.toList_inj, hcs]; rfl
  | cons c cs =>
    rw [hcs] at hall hhead hpart
    obtain ⟨hc, hall⟩ := List.forall_mem_cons.1 hall
    have hupper : c.toUpper = c := IdlCompiler.Name.forall_isPart
      (P := fun c => c.isLower = false → c.toUpper = c) (by decide +kernel)
      (hpart c List.mem_cons_self) (hhead c rfl)
    rw [Name.pascalChars, if_neg (hsep hc), hrest cs hall, if_pos rfl, hupper, ← hcs,
      String.ofList_toList]

theorem simpleName_of_not_hasDot {name : String} (h : ¬ IdlCompiler.Name.hasDot name) :
    simpleName name = name := by
  have hdot : '.' ∉ name.toList := by simpa [IdlCompiler.Name.hasDot] using h
  simp [simpleName, IdlCompiler.Name.segments, Text.splitOn_of_notMem hdot]

theorem simpleName_qualify {space name : String} (h : ¬ IdlCompiler.Name.hasDot name) :
    simpleName (IdlCompiler.Name.qualify space name) = name := by
  have hdot : '.' ∉ name.toList := by simpa [IdlCompiler.Name.hasDot] using h
  have hchars : (IdlCompiler.Name.qualify space name).toList =
      space.toList ++ '.' :: name.toList := by
    simp [IdlCompiler.Name.qualify]
  rw [simpleName, IdlCompiler.Name.segments, hchars, Text.splitOn_append_sep,
    Text.splitOn_of_notMem hdot]
  simp

end Target

open Target (simpleName simpleName_of_not_hasDot simpleName_qualify)

namespace Protocol

variable {p : Protocol} {t : NamedType} {reference : String}

theorem WellFormed.simpleName_fullNameOf (hp : p.WellFormed) (ht : t ∈ p.types) :
    simpleName (p.fullNameOf t) = t.name := by
  rw [hp.fullNameOf_eq ht]
  split
  · exact simpleName_qualify (hp.not_hasDot_name ht)
  · exact simpleName_of_not_hasDot (hp.not_hasDot_name ht)

/-- The type that the check finds for a reference has the simple name of the reference. -/
theorem WellFormed.name_of_getType? (hp : p.WellFormed) (hi : p.IsIndexed)
    (h : p.getType? reference = some t) : t.name = simpleName reference := by
  obtain ⟨ht, ⟨hdot, space, hspace, hfull⟩ | ⟨hfull, -⟩⟩ := hp.fullNameOf_of_getType? hi h
  · rw [simpleName_of_not_hasDot hdot, hp.name_eq_of_qualify ht hdot hspace hfull]
  · rw [← hfull, hp.simpleName_fullNameOf ht]

/-- So has the type that the resolved protocol finds, although it may be another one. -/
theorem WellFormed.exists_name_of_getType? (hp : p.WellFormed) {u : ResolvedType}
    (h : (Resolved.ofProtocol p).getType? reference = some u) :
    ∃ t ∈ p.types, u = .ofType p t ∧ t.name = simpleName reference := by
  obtain ⟨full, hfind, hnamed⟩ := Option.bind_eq_some_iff.1 h
  obtain ⟨t, ht, rfl, hname | hfull⟩ := exists_of_find?_referencesOf hfind
  all_goals
    rw [hp.named?_fullNameOf ht] at hnamed
    refine ⟨t, ht, (Option.some.inj hnamed).symm, ?_⟩
  · rw [← hname, simpleName_of_not_hasDot (hp.not_hasDot_name ht)]
  · rw [← hfull, hp.simpleName_fullNameOf ht]

/-- The name in generated code that a reference stands for is read off the reference. -/
theorem WellFormed.referenceName_eq (hp : p.WellFormed) (reference : String) :
    Target.referenceName (.ofProtocol p) reference =
      Target.Name.pascalCase (simpleName reference) := by
  rw [Target.referenceName, Resolved.targetName?]
  cases h : (Resolved.ofProtocol p).getType? reference with
  | none => rfl
  | some u =>
    obtain ⟨t, -, rfl, hname⟩ := hp.exists_name_of_getType? h
    rw [← hname]
    rfl

end Protocol

/-! ## Branches -/

namespace Schema

/-- Tells whether a schema is a reference. -/
def isNamed : Schema → Bool
  | named _ => true
  | _ => false

/-- The word for a branch in generated code. -/
def variantWord : Schema → String
  | named name => Target.Name.pascalCase (simpleName name)
  | array _ => "Array"
  | map _ => "Map"
  | union _ => "Union"
  | primitive type => Target.Name.pascalCase type.name

/-- A branch that is a reference comes out like another branch. -/
def Clashes (a b : Schema) : Prop := (a.isNamed ∨ b.isNamed) ∧ a.variantWord = b.variantWord

instance (a b : Schema) : Decidable (a.Clashes b) := inferInstanceAs (Decidable (_ ∧ _))

end Schema

namespace Target

variable {p : Protocol}

theorem branchName_eq (hp : p.WellFormed) (b : Schema) :
    branchName (.ofProtocol p) b = b.variantWord := by
  cases b with
  | named name => exact hp.referenceName_eq name
  | primitive | array | map | union => rfl

/-- The keys of branches that are no references. -/
def kindKeys : List String := Primitive.all.map Primitive.name ++ ["array", "map", "union"]

/-- A branch that is no reference comes out as its key, with a capital in front. -/
theorem variantWord_eq_pascalCase (p : Protocol) {b : Schema} (hb : ¬ b.isNamed) :
    b.variantWord = Name.pascalCase (p.branchKey b) ∧ p.branchKey b ∈ kindKeys := by
  cases b with
  | named => exact absurd rfl hb
  | primitive type =>
    refine ⟨rfl, List.mem_append_left _ (List.mem_map_of_mem ?_)⟩
    cases type <;> decide
  | array => exact ⟨(by decide : "Array" = Name.pascalCase "array"), by
      simp [Protocol.branchKey, kindKeys]⟩
  | map => exact ⟨(by decide : "Map" = Name.pascalCase "map"), by
      simp [Protocol.branchKey, kindKeys]⟩
  | union => exact ⟨(by decide : "Union" = Name.pascalCase "union"), by
      simp [Protocol.branchKey, kindKeys]⟩

/-- Branches with different keys come out alike only if one of them is a reference. -/
theorem variantWord_ne_iff {a b : Schema} (hkey : p.branchKey a ≠ p.branchKey b) :
    a.variantWord ≠ b.variantWord ↔ ¬ a.Clashes b := by
  have hkinds : ∀ x ∈ kindKeys, ∀ y ∈ kindKeys, Name.pascalCase x = Name.pascalCase y → x = y := by
    decide
  refine ⟨fun hne hclash => hne hclash.2, fun hclash heq => hclash ⟨?_, heq⟩⟩
  by_contra hkind
  obtain ⟨ha, hb⟩ := not_or.1 hkind
  obtain ⟨hworda, hmema⟩ := variantWord_eq_pascalCase p ha
  obtain ⟨hwordb, hmemb⟩ := variantWord_eq_pascalCase p hb
  exact hkey (hkinds _ hmema _ hmemb (hworda ▸ hwordb ▸ heq))

/-- **When the variants of a union differ**: no reference among its branches comes out like another
branch. -/
theorem nodup_mapBranches_iff (hp : p.WellFormed) {branches : List Schema}
    (hkeys : (branches.map p.branchKey).Nodup) (hint : String) :
    ((mapBranches (.ofProtocol p) hint branches).1.map Variant.name).Nodup ↔
      branches.Pairwise fun a b => ¬ a.Clashes b := by
  have hnames : (mapBranches (.ofProtocol p) hint branches).1.map Variant.name =
      branches.map Schema.variantWord := by
    rw [mapBranches_eq, List.map_map]
    exact List.map_congr_left fun b _ => branchName_eq hp b
  rw [hnames, List.Nodup, List.pairwise_map]
  have hkeys := List.pairwise_map.1 hkeys
  constructor
  · exact fun h => (hkeys.and h).imp fun ⟨hkey, hne⟩ => (variantWord_ne_iff hkey).1 hne
  · exact fun h => (hkeys.and h).imp fun ⟨hkey, hclash⟩ => (variantWord_ne_iff hkey).2 hclash

/-! ## Errors -/

theorem nodup_foldl_appendNew {names acc : List String} (h : acc.Nodup) :
    (names.foldl appendNew acc).Nodup := by
  induction names generalizing acc with
  | nil => exact h
  | cons name names ih =>
    refine ih ?_
    rw [appendNew]
    split
    · exact h
    · rename_i hnew
      exact List.nodup_append.2 ⟨h, List.nodup_singleton name, by
        rintro a ha b hb rfl
        obtain rfl := List.mem_singleton.1 hb
        exact hnew (by simpa using ha)⟩

/-- The name in generated code of the error type with a full name. -/
def errorVariant (full : String) : String := Name.pascalCase (simpleName full)

theorem header_of_mem_serviceOf? {r : Resolved} {s : Service} (h : s ∈ serviceOf? r) :
    s.protocol = r.name ∧ s.errorName = errorName r := by
  unfold serviceOf? at h
  split at h
  · cases h
  · obtain rfl := Option.some.inj h
    exact ⟨rfl, rfl⟩

namespace Service

/-- The variants of the error type of a service, read off its code. -/
def variants (s : Service) : List String := (EnumCode.read s.errorText).names

/-- The lines that the code of an error type shows: the variants with what they hold, and how the
errors are shown to users. -/
def shown (s : Service) : List EnumLine :=
  (s.errors.map fun e => .variant (e ++ "(" ++ e ++ ")")) ++ .variant "Undeclared(String)" ::
  (s.errors.map fun e => .arm ("Self::" ++ e ++ "(e)") "write!(f, \"\x7b\x7d\", e)") ++
  [.arm "Self::Undeclared(message)" "f.write_str(message)"]

variable {s : Service}

theorem shows_variants (herrors : ∀ e ∈ s.errors, ' ' ∉ e.toList ∧ '\n' ∉ e.toList) :
    Shows (lines (s.errors.map fun e => line 1 s!"{e}({e}),"))
      (s.errors.map fun e => .variant (e ++ "(" ++ e ++ ")")) := by
  refine .lines_map fun e he => ?_
  obtain ⟨hblank, hfeed⟩ := herrors e he
  have hline : s!"{e}({e})," = e ++ "(" ++ e ++ ")" ++ "," := by
    simp [toString, ← String.toList_inj, String.toList_append]
  rw [hline]
  refine .variant ?_ ?_
  · simp [String.toList_append, hblank]
  · simp [String.toList_append, hfeed]

theorem shows_arms (herrors : ∀ e ∈ s.errors, ' ' ∉ e.toList ∧ '\n' ∉ e.toList) :
    Shows (lines (s.errors.map fun e => line 3 s!"Self::{e}(e) => write!(f, \"\x7b\x7d\", e),"))
      (s.errors.map fun e => .arm ("Self::" ++ e ++ "(e)") "write!(f, \"\x7b\x7d\", e)") := by
  refine .lines_map fun e he => ?_
  obtain ⟨hblank, hfeed⟩ := herrors e he
  have hline : s!"Self::{e}(e) => write!(f, \"\x7b\x7d\", e)," =
      "Self::" ++ e ++ "(e)" ++ " => " ++ "write!(f, \"\x7b\x7d\", e)" ++ "," := by
    simp [toString, ← String.toList_inj, String.toList_append]
  rw [hline]
  refine .arm ?_ ?_ ?_ (by decide)
  · simp [← String.toList_inj, String.toList_append]
  · simp [String.toList_append, hblank]
  · simp [String.toList_append, hfeed]

/-- The conversions of errors show nothing. -/
theorem shows_from (hname : '\n' ∉ s.errorName.toList) (herrors : ∀ e ∈ s.errors, '\n' ∉ e.toList) :
    Shows (lines (s.errors.map fun e =>
      lines [line 0 s!"impl From<{e}> for {s.errorName} \x7b",
        line 1 s!"fn from(error: {e}) -> Self \x7b",
        line 2 s!"Self::{e}(error)",
        methodClosing])) [] := by
  refine .lines_nil fun e he => ?_
  have hfeed := herrors e he
  refine .lines (.cons (.line_zero ?_ ?_) (.cons (.line_one_of_ne ?_ ?_ ?_ ?_)
    (.cons (.line_two ?_ ?_) (.cons .methodClosing .nil))))
  all_goals simp [toString, String.toList_append, List.getLast?_cons, hname, hfeed]

/-- **What the code of an error type shows.** -/
theorem shows_errorText (hprotocol : '\n' ∉ s.protocol.toList) (hname : '\n' ∉ s.errorName.toList)
    (herrors : ∀ e ∈ s.errors, ' ' ∉ e.toList ∧ '\n' ∉ e.toList) : Shows s.errorText s.shown := by
  have hdoc : Shows (line 0 s!"/// Errors a \x60{s.protocol}\x60 message may return.") [] := by
    refine .line_zero ?_ ?_ <;> simp [toString, String.toList_append, hprotocol]
  have hnamed : Shows (line 0 s!"pub enum {s.errorName} \x7b") [] ∧
      Shows (line 0 s!"impl std::error::Error for {s.errorName} \x7b\x7d") [] := by
    refine ⟨.line_zero ?_ ?_, .line_zero ?_ ?_⟩ <;> simp [toString, String.toList_append, hname]
  obtain ⟨henum, himpl⟩ := hnamed
  have hlist : List.Forall₂ Shows _ _ :=
    .cons hdoc <| .cons (by decide : Shows (derives dataTraits) []) <| .cons henum <|
    .cons (shows_variants herrors) <|
    .cons (by decide : Shows (line 1 "/// Failure not declared by the message.") []) <|
    .cons (by decide : Shows (line 1 "Undeclared(String),") [.variant "Undeclared(String)"]) <|
    .cons (.closing 0) <| .cons .gap <| .cons (.displayOpening hname) <|
    .cons (by decide : Shows (line 2 "match self \x7b") []) <| .cons (shows_arms herrors) <|
    .cons (by decide : Shows (line 3 "Self::Undeclared(message) => f.write_str(message),")
      [.arm "Self::Undeclared(message)" "f.write_str(message)"]) <|
    .cons (.closing 2) <| .cons .methodClosing <| .cons himpl <| .cons .gap <|
    .cons (shows_from hname fun e he => (herrors e he).2) .nil
  refine Eq.subst (motive := Shows s.errorText) ?_ (Shows.lines hlist)
  simp [shown]

/-- The variants are the errors, and one for every other failure. -/
theorem variants_eq (hprotocol : '\n' ∉ s.protocol.toList) (hname : '\n' ∉ s.errorName.toList)
    (herrors : ∀ e ∈ s.errors, ∀ c ∈ e.toList, IdlCompiler.Name.isPart c) :
    s.variants = s.errors ++ ["Undeclared"] := by
  have hshows := shows_errorText hprotocol hname fun e he => blank_and_feed_notMem (herrors e he)
  have hread : (EnumCode.read s.errorText).variants =
      (s.errors.map fun e => e ++ "(" ++ e ++ ")") ++ ["Undeclared(String)"] := by
    rw [EnumCode.read, hshows.readAll, shown]
    simp [List.filterMap_append, List.filterMap_map, List.filterMap_cons, Function.comp_def,
      EnumLine.variant?]
  have hcut : ∀ e ∈ s.errors,
      String.ofList ((e ++ "(" ++ e ++ ")").toList.takeWhile (· ≠ '(')) = e := by
    intro e he
    have hopen : ∀ c ∈ e.toList, decide (c ≠ '(') := fun c hc =>
      decide_eq_true fun heq => absurd (heq ▸ herrors e he c hc) (by decide)
    rw [String.append_assoc, String.append_assoc, String.toList_append,
      List.takeWhile_append_of_pos hopen]
    simp
  rw [variants, EnumCode.names, hread, List.map_append, List.map_map]
  refine congrArg₂ _ ?_ (by decide)
  exact (List.map_congr_left hcut).trans (List.map_id _)

end Service

end Target

namespace Protocol

/-- The full names of the errors that messages declare, each once. -/
def thrown (p : Protocol) : List String :=
  ((p.messages.flatMap Message.errors).map p.resolveName).dedup

variable {p : Protocol} {full : String}

theorem mem_thrown_iff :
    full ∈ p.thrown ↔ ∃ m ∈ p.messages, ∃ e ∈ m.errors, p.resolveName e = full := by
  simp only [thrown, List.mem_dedup, List.mem_map, List.mem_flatMap]
  constructor
  · rintro ⟨e, ⟨m, hm, he⟩, hfull⟩
    exact ⟨m, hm, e, he, hfull⟩
  · rintro ⟨m, hm, e, he, hfull⟩
    exact ⟨e, ⟨m, hm, he⟩, hfull⟩

theorem WellFormed.exists_type_of_mem_thrown (hp : p.WellFormed) (hi : p.IsIndexed)
    (h : full ∈ p.thrown) : ∃ t ∈ p.types, p.fullNameOf t = full := by
  obtain ⟨m, hm, e, he, rfl⟩ := mem_thrown_iff.1 h
  obtain ⟨t, ht, -⟩ := (hp.messages m hm).errors e he
  exact ⟨t, (hp.fullNameOf_of_getType? hi ht).1, by rw [resolveName, ht]⟩

/-- The name of a declared error in generated code is read off its full name. -/
theorem WellFormed.targetName?_of_mem_thrown (hp : p.WellFormed) (hi : p.IsIndexed)
    (h : full ∈ p.thrown) : (Resolved.ofProtocol p).targetName? full =
      some (Target.errorVariant full) := by
  obtain ⟨t, ht, rfl⟩ := hp.exists_type_of_mem_thrown hi h
  rw [Resolved.targetName?, hp.getType?_fullNameOf ht, Target.errorVariant,
    hp.simpleName_fullNameOf ht]
  rfl

end Protocol

namespace Target

variable {p : Protocol}

/-- The errors of the service are the names of the declared ones, each once. -/
theorem mem_errors_iff (hp : p.WellFormed) (hi : p.IsIndexed) {s : Service}
    (hs : s ∈ (Module.ofResolved (.ofProtocol p)).service) {n : String} :
    n ∈ s.errors ↔ ∃ full ∈ p.thrown, errorVariant full = n := by
  have hmessages : (Resolved.ofProtocol p).messages = p.messages.map (.ofMessage p) := rfl
  have htarget : ∀ full ∈ p.thrown,
      ((∃ t, (Resolved.ofProtocol p).getType? full = some t ∧ t.targetName = n) ↔
        errorVariant full = n) := by
    intro full hfull
    have htarget := hp.targetName?_of_mem_thrown hi hfull
    rw [← Option.map_eq_some_iff, ← Resolved.targetName?, htarget, Option.some.injEq]
  rw [(eq_of_mem_serviceOf? hs).2.2, mem_declaredErrors_iff, hmessages]
  constructor
  · rintro ⟨_, hmessage, full, herror, hn⟩
    obtain ⟨m, hm, rfl⟩ := List.mem_map.1 hmessage
    obtain ⟨e, he, rfl⟩ := List.mem_map.1 herror
    have hfull := Protocol.mem_thrown_iff.2 ⟨m, hm, e, he, rfl⟩
    exact ⟨_, hfull, (htarget _ hfull).1 hn⟩
  · rintro ⟨full, hfull, hn⟩
    obtain ⟨m, hm, e, he, rfl⟩ := Protocol.mem_thrown_iff.1 hfull
    exact ⟨.ofMessage p m, List.mem_map_of_mem hm, _, List.mem_map_of_mem he,
      (htarget _ hfull).2 hn⟩

theorem nodup_errors {r : Resolved} {s : Service} (hs : s ∈ serviceOf? r) : s.errors.Nodup := by
  rw [(eq_of_mem_serviceOf? hs).2.2]
  exact nodup_foldl_appendNew List.nodup_nil

/-- The code of the error type declares a variant for each error, and one for other failures. -/
theorem variants_eq_of_mem_service (hp : p.WellFormed) (hi : p.IsIndexed) {s : Service}
    (hs : s ∈ (Module.ofResolved (.ofProtocol p)).service) :
    s.variants = s.errors ++ ["Undeclared"] := by
  obtain ⟨hprotocol, hname⟩ := header_of_mem_serviceOf? hs
  refine Service.variants_eq ?_ ?_ fun e he => ?_
  · rw [hprotocol]
    exact (blank_and_feed_notMem (Name.forall_isPart_of_isIdentifier hp.isIdentifier)).2
  · have hfeed : '\n' ∉ (Name.pascalCase p.name).toList :=
      (blank_and_feed_notMem (Name.isCapitalized_pascalCase hp.isIdentifier).isPart).2
    rw [hname, errorName, String.toList_append, List.mem_append]
    exact not_or.2 ⟨hfeed, by decide⟩
  · obtain ⟨full, hfull, rfl⟩ := (mem_errors_iff hp hi hs).1 he
    obtain ⟨t, ht, rfl⟩ := hp.exists_type_of_mem_thrown hi hfull
    rw [errorVariant, hp.simpleName_fullNameOf ht]
    exact (Name.isCapitalized_pascalCase (hp.types t ht).isIdentifier).isPart

/-- **When the variants of the error type differ**: no declared error comes out like the variant for
other failures. -/
theorem nodup_variants_iff (hp : p.WellFormed) (hi : p.IsIndexed) {s : Service}
    (hs : s ∈ (Module.ofResolved (.ofProtocol p)).service) :
    s.variants.Nodup ↔ ∀ full ∈ p.thrown, errorVariant full ≠ "Undeclared" := by
  have hnew : "Undeclared" ∉ s.errors ↔ _ := not_congr (mem_errors_iff hp hi hs)
  rw [variants_eq_of_mem_service hp hi hs, List.nodup_append_comm]
  simp [nodup_errors hs, hnew]

/-- **When each declared error has a variant of its own**: no two of them come out alike. -/
theorem perm_variants_iff (hp : p.WellFormed) (hi : p.IsIndexed) {s : Service}
    (hs : s ∈ (Module.ofResolved (.ofProtocol p)).service) :
    s.variants.Perm (p.thrown.map errorVariant ++ ["Undeclared"]) ↔
      (p.thrown.map errorVariant).Nodup := by
  rw [variants_eq_of_mem_service hp hi hs, List.perm_append_right_iff]
  refine ⟨fun h => h.nodup (nodup_errors hs), fun h => ?_⟩
  refine (List.perm_ext_iff_of_nodup (nodup_errors hs) h).2 fun n => ?_
  rw [mem_errors_iff hp hi hs, List.mem_map]

/-- **When variants differ.**  In the code for a well-formed protocol, the variants of a union at
any depth differ exactly if no reference among its branches comes out like another branch; those of
the error type differ exactly if no declared error is called like the variant for other failures;
and there is one for each declared error exactly if no two declared errors come out alike. -/
theorem variants_apart_iff (hvalid : p.validate = .ok ()) (hindexed : p.IsIndexed) :
    (∀ s ∈ p.schemas, ∀ branches, (Schema.union branches).Within s → ∀ hint,
      (((mapBranches (.ofProtocol p) hint branches).1.map Variant.name).Nodup ↔
        branches.Pairwise fun a b => ¬ a.Clashes b)) ∧
    ∀ s ∈ (Module.ofResolved (.ofProtocol p)).service,
      (s.variants.Nodup ↔ ∀ full ∈ p.thrown, errorVariant full ≠ "Undeclared") ∧
      (s.variants.Perm (p.thrown.map errorVariant ++ ["Undeclared"]) ↔
        (p.thrown.map errorVariant).Nodup) := by
  have hp := Protocol.validate_eq_ok_iff.1 hvalid
  refine ⟨fun s hs branches hwithin hint => nodup_mapBranches_iff hp ?_ hint, fun s hs =>
    ⟨nodup_variants_iff hp hindexed hs, perm_variants_iff hp hindexed hs⟩⟩
  exact ((hp.conforms hindexed).unions s hs branches hwithin).2.2

/-- Two records and three errors: one record is called like a kind, one error like the variant for
other failures, and the other errors differ in an underscore and in a capital. -/
def lookalikes : Protocol :=
  { (Protocol.empty "P" none).addTypes [
      { name := "Int", body := .record false [] },
      { name := "R"
        body := .record false
          [{ name := "x", schema := .union [.primitive .int, .named "Int"] }] },
      { name := "Undeclared", body := .record true [] },
      { name := "foo_bar", body := .record true [] },
      { name := "FooBar", body := .record true [] }] with
    messages := [{
      name := "call"
      response := .null
      errors := ["Undeclared", "foo_bar", "FooBar"] }] }

/-- Nothing is kept apart there, and everything in the shop. -/
theorem lookalikes_clash :
    lookalikes.validate = .ok () ∧ lookalikes.IsIndexed ∧
      ¬ ((mapBranches (.ofProtocol lookalikes) "RX" [.primitive .int, .named "Int"]).1.map
        Variant.name).Nodup ∧
      (∃ s ∈ (Module.ofResolved (.ofProtocol lookalikes)).service,
        ¬ s.variants.Nodup ∧
          ¬ s.variants.Perm (lookalikes.thrown.map errorVariant ++ ["Undeclared"])) ∧
      shop.validate = .ok () ∧ shop.IsIndexed ∧
      ((mapBranches (.ofProtocol shop) "FindResponse" [.named "Item", .named "SoldOut"]).1.map
        Variant.name).Nodup ∧
      ∃ s ∈ (Module.ofResolved (.ofProtocol shop)).service,
        s.variants.Nodup ∧ s.variants.Perm (shop.thrown.map errorVariant ++ ["Undeclared"]) := by
  obtain ⟨hunions, hservice⟩ := variants_apart_iff (p := lookalikes) rfl rfl
  obtain ⟨hunions', hservice'⟩ := variants_apart_iff (p := shop) rfl rfl
  obtain ⟨s, hs⟩ := exists_service (p := lookalikes) (by decide)
  obtain ⟨s', hs'⟩ := exists_service (p := shop) (by decide)
  refine ⟨rfl, rfl, fun h => ?_, ⟨s, hs, fun h => ?_, fun h => ?_⟩, rfl, rfl, ?_, s', hs', ?_, ?_⟩
  · have hclash := (hunions _ (by decide) _ .self "RX").1 h
    exact absurd hclash (by decide)
  · exact absurd ((hservice s hs).1.1 h) (by decide)
  · exact absurd ((hservice s hs).2.1 h) (by decide)
  · exact (hunions' _ (by decide) _ .self "FindResponse").2 (by decide)
  · exact (hservice' s' hs').1.2 (by decide)
  · exact (hservice' s' hs').2.2 (by decide)

end Target

/-! ## Names that keep variants apart -/

namespace Protocol

open Target.Name (IsCapitalized pascalCase pascalCase_eq_self)

/-- The types are in the namespace of the protocol, have a capital in front of letters and digits,
and are called neither like a kind nor like the variant for other failures. -/
structure HasPlainTypes (p : Protocol) : Prop where
  space : ∀ t ∈ p.types, t.space = none
  isCapitalized : ∀ t ∈ p.types, IsCapitalized t.name
  notMem : ∀ t ∈ p.types, t.name ∉ "Undeclared" :: Target.kindKeys.map pascalCase

variable {p : Protocol}

/-- References to plain types come out like other branches only if the check finds the branches
alike as well. -/
theorem HasPlainTypes.not_clashes (h : p.HasPlainTypes) (hp : p.WellFormed) (hi : p.IsIndexed)
    {a b : Schema} (ha : p.AllowsSchema a) (hb : p.AllowsSchema b)
    (hkey : p.branchKey a ≠ p.branchKey b) : ¬ a.Clashes b := by
  -- a reference comes out as the name of its type
  have hnamed : ∀ {n : String}, p.AllowsSchema (.named n) → ∃ t ∈ p.types,
      p.branchKey (.named n) = p.fullNameOf t ∧ (Schema.named n).variantWord = t.name := by
    intro n hn
    obtain ⟨t, ht⟩ := hi.hasType_iff.1 hn
    have hmem := (hp.fullNameOf_of_getType? hi ht).1
    refine ⟨t, hmem, by rw [branchKey, ht], ?_⟩
    rw [Schema.variantWord, ← hp.name_of_getType? hi ht,
      pascalCase_eq_self (h.isCapitalized t hmem)]
  have hkind : ∀ {n : String} {c : Schema}, p.AllowsSchema (.named n) → ¬ c.isNamed →
      (Schema.named n).variantWord ≠ c.variantWord := by
    intro n c hn hc heq
    obtain ⟨t, ht, -, hword⟩ := hnamed hn
    obtain ⟨hword', hmem⟩ := Target.variantWord_eq_pascalCase p hc
    refine h.notMem t ht (List.mem_cons_of_mem _ ?_)
    rw [← hword, heq, hword']
    exact List.mem_map_of_mem hmem
  rintro ⟨hsome, heq⟩
  cases a with
  | named m =>
    cases b with
    | named n =>
      obtain ⟨t, ht, hfull, hword⟩ := hnamed ha
      obtain ⟨u, hu, hfull', hword'⟩ := hnamed hb
      have hname : t.name = u.name := by rw [← hword, ← hword', heq]
      refine hkey ?_
      rw [hfull, hfull', hp.fullNameOf_eq ht, hp.fullNameOf_eq hu, h.space t ht, h.space u hu,
        hname]
    | primitive | array | map | union => exact hkind ha (by simp [Schema.isNamed]) heq
  | primitive | array | map | union =>
    cases b with
    | named n => exact hkind hb (by simp [Schema.isNamed]) heq.symm
    | primitive | array | map | union => simp [Schema.isNamed] at hsome

/-- The variants of unions differ in a protocol with plain types. -/
theorem HasPlainTypes.nodup_mapBranches (h : p.HasPlainTypes) (hp : p.WellFormed)
    (hi : p.IsIndexed) {branches : List Schema} (hallowed : p.AllowsSchema (.union branches))
    (hint : String) :
    ((Target.mapBranches (.ofProtocol p) hint branches).1.map Target.Variant.name).Nodup := by
  rw [AllowsSchema] at hallowed
  obtain ⟨-, -, hkeys, hbranches⟩ := hallowed
  refine (Target.nodup_mapBranches_iff hp hkeys hint).2 ?_
  refine (List.pairwise_map.1 hkeys).imp_of_mem fun ha hb hkey => ?_
  rw [allowsSchemas_iff] at hbranches
  exact h.not_clashes hp hi (hbranches _ ha) (hbranches _ hb) hkey

/-- So do those of the error type, and there is one for each declared error. -/
theorem HasPlainTypes.nodup_variants (h : p.HasPlainTypes) (hp : p.WellFormed) (hi : p.IsIndexed)
    {s : Target.Service} (hs : s ∈ (Target.Module.ofResolved (.ofProtocol p)).service) :
    s.variants.Nodup ∧ s.variants.Perm (p.thrown.map Target.errorVariant ++ ["Undeclared"]) := by
  have hthrown : ∀ full ∈ p.thrown, ∃ t ∈ p.types, p.fullNameOf t = full ∧
      Target.errorVariant full = t.name := by
    intro full hfull
    obtain ⟨t, ht, rfl⟩ := hp.exists_type_of_mem_thrown hi hfull
    refine ⟨t, ht, rfl, ?_⟩
    rw [Target.errorVariant, hp.simpleName_fullNameOf ht, pascalCase_eq_self (h.isCapitalized t ht)]
  constructor
  · refine (Target.nodup_variants_iff hp hi hs).2 fun full hfull heq => ?_
    obtain ⟨t, ht, -, hname⟩ := hthrown full hfull
    exact h.notMem t ht (by simp [← hname, heq])
  · refine (Target.perm_variants_iff hp hi hs).2 ((List.nodup_dedup _).map_on ?_)
    intro full hfull full' hfull' heq
    obtain ⟨t, ht, rfl, hname⟩ := hthrown full hfull
    obtain ⟨u, hu, rfl, hname'⟩ := hthrown full' hfull'
    rw [hp.fullNameOf_eq ht, hp.fullNameOf_eq hu, h.space t ht, h.space u hu, ← hname, ← hname',
      heq]

end Protocol

end IdlCompiler
