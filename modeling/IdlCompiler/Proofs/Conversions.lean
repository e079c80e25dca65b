/-
# Conversions of enums

The code of an enum shows its symbols three times: in a constant that lists them, in a match that
gives the symbol of a variant, and in a match that finds the variant of a symbol.  What the code
does is read off its text line by line (`Target.EnumCode.read`), and a match takes the first arm
whose pattern fits.  Different symbols may get one variant, such as `FOO_BAR` and `FooBar`.

Main statements: the lines that stand for something are the variants, the constant and the arms,
whatever the documentation says (`Target.EnumDef.shows_text`); the conversions are inverse exactly
if the variants of the symbols differ (`Target.isInverse_iff`); and symbols in capitals, with a
letter behind each underscore, have different variants (`Target.isInverse_of_isScreaming`).
-/
import IdlCompiler.Proofs.EnumLines
import IdlCompiler.Proofs.Spelling

namespace IdlCompiler

/-! ## Symbols in capitals -/

namespace Target.Name

variable {cs ds : List Char} {start : Bool}

/-- Words of capitals and digits with a capital in front, with one underscore between neighbours;
`start` tells whether a word is to start. -/
def hasWords (start : Bool) : List Char → Bool
  | [] => !start
  | c :: cs =>
    if c = '_' then !start && hasWords true cs
    else (c.isUpper || (!start && c.isDigit)) && hasWords false cs

/-- A symbol of words in capitals. -/
def IsScreaming (symbol : String) : Prop := hasWords true symbol.toList

theorem of_isUpper_or_isDigit {c : Char} (h : c.isUpper ∨ c.isDigit) :
    c.toLower.toUpper = c ∧ c.toLower ≠ '_' ∧ c.toLower ≠ '-' ∧ c.toLower.isUpper = false ∧
      c.isLower = false := by
  have hpart : IdlCompiler.Name.isPart c := by
    simp only [IdlCompiler.Name.isPart, Char.isAlphanum, Char.isAlpha, Bool.or_eq_true]
    exact .inl (h.imp .inl id)
  exact IdlCompiler.Name.forall_isPart (P := fun c => (c.isUpper ∨ c.isDigit) →
    c.toLower.toUpper = c ∧ c.toLower ≠ '_' ∧ c.toLower ≠ '-' ∧ c.toLower.isUpper = false ∧
      c.isLower = false) (by decide +kernel) hpart h

/-- A character that is no underscore starts a word or goes on with it. -/
theorem hasWords_cons_iff {c : Char} (hc : c ≠ '_') : hasWords start (c :: cs) ↔
    (c.isUpper ∨ start = false ∧ c.isDigit) ∧ hasWords false cs := by
  simp [hasWords, hc]

theorem pascalChars_cons_toLower {c : Char} (h : c.isUpper ∨ start = false ∧ c.isDigit) :
    pascalChars start ((c :: cs).map Char.toLower) =
      (if start then c else c.toLower) :: pascalChars false (cs.map Char.toLower) := by
  obtain ⟨hupper, hunder, hhyphen, -⟩ := of_isUpper_or_isDigit (h.imp_right And.right)
  rw [List.map_cons, pascalChars, if_neg (by simp [hunder, hhyphen]), hupper]

/-- A word starts with a capital. -/
theorem exists_head?_of_hasWords (h : hasWords true cs) :
    ∃ c ∈ (pascalChars true (cs.map Char.toLower)).head?, c.isUpper := by
  cases cs with
  | nil => exact absurd h (by decide)
  | cons c cs =>
    have hc : c ≠ '_' := by
      rintro rfl
      simp [hasWords] at h
    obtain ⟨hupper, -⟩ := (hasWords_cons_iff hc).1 h
    rw [pascalChars_cons_toLower hupper]
    exact ⟨c, rfl, by simpa using hupper⟩

theorem pascalChars_underscore :
    pascalChars start (('_' :: cs).map Char.toLower) = pascalChars true (cs.map Char.toLower) := by
  have hsame : Char.toLower '_' = '_' := by decide
  simp [pascalChars, hsame]

/-- Behind an underscore there is a capital, and elsewhere none. -/
theorem pascalChars_underscore_ne {c : Char} (hcs : hasWords start ('_' :: cs))
    (hds : hasWords start (c :: ds)) (hc : c ≠ '_') :
    pascalChars start (('_' :: cs).map Char.toLower) ≠
      pascalChars start ((c :: ds).map Char.toLower) := by
  obtain ⟨hstart, hwords⟩ : start = false ∧ hasWords true cs := by simpa [hasWords] using hcs
  obtain ⟨d, hd, hupper⟩ := exists_head?_of_hasWords hwords
  obtain ⟨hchar, -⟩ := (hasWords_cons_iff hc).1 hds
  obtain ⟨-, -, -, hsmall, -⟩ := of_isUpper_or_isDigit (hchar.imp_right And.right)
  intro heq
  rw [pascalChars_underscore, pascalChars_cons_toLower hchar, hstart] at heq
  rw [heq] at hd
  obtain rfl : c.toLower = d := by simpa using hd
  simp [hupper] at hsmall

/-- The capitals tell where the underscores are. -/
theorem eq_of_pascalChars_eq (hcs : hasWords start cs) (hds : hasWords start ds)
    (h : pascalChars start (cs.map Char.toLower) = pascalChars start (ds.map Char.toLower)) :
    cs = ds := by
  have hne : ∀ {start : Bool} {c : Char} {cs : List Char}, hasWords start (c :: cs) →
      pascalChars start ((c :: cs).map Char.toLower) ≠ [] := by
    intro start c cs hwords
    by_cases hc : c = '_'
    · subst hc
      obtain ⟨-, hwords⟩ : start = false ∧ hasWords true cs := by simpa [hasWords] using hwords
      obtain ⟨d, hd, -⟩ := exists_head?_of_hasWords hwords
      rw [pascalChars_underscore]
      exact List.ne_nil_of_mem (List.mem_of_mem_head? hd)
    · rw [pascalChars_cons_toLower ((hasWords_cons_iff hc).1 hwords).1]
      exact List.cons_ne_nil _ _
  induction cs generalizing ds start with
  | nil =>
    cases ds with
    | nil => rfl
    | cons d ds => exact absurd h.symm (hne hds)
  | cons c cs ih =>
    cases ds with
    | nil => exact absurd h (hne hcs)
    | cons d ds =>
      by_cases hc : c = '_' <;> by_cases hd : d = '_'
      · subst hc hd
        rw [pascalChars_underscore, pascalChars_underscore] at h
        rw [ih (by simp_all [hasWords]) (by simp_all [hasWords]) h]
      · subst hc
        exact absurd h (pascalChars_underscore_ne hcs hds hd)
      · subst hd
        exact absurd h.symm (pascalChars_underscore_ne hds hcs hc)
      · obtain ⟨hchar, hrest⟩ := (hasWords_cons_iff hc).1 hcs
        obtain ⟨hchar', hrest'⟩ := (hasWords_cons_iff hd).1 hds
        rw [pascalChars_cons_toLower hchar, pascalChars_cons_toLower hchar'] at h
        obtain ⟨hhead, htail⟩ := List.cons.inj h
        have hback := (of_isUpper_or_isDigit (hchar.imp_right And.right)).1
        have hback' := (of_isUpper_or_isDigit (hchar'.imp_right And.right)).1
        obtain rfl : c = d := by
          cases start with
          | true => exact hhead
          | false => rw [← hback, ← hback', show c.toLower = d.toLower from hhead]
        rw [ih hrest hrest' htail]

theorem isLower_eq_false_of_hasWords (h : hasWords start cs) : ∀ c ∈ cs, c.isLower = false := by
  induction cs generalizing start with
  | nil => simp
  | cons c cs ih =>
    by_cases hc : c = '_'
    · subst hc
      obtain ⟨-, hwords⟩ : start = false ∧ hasWords true cs := by simpa [hasWords] using h
      exact List.forall_mem_cons.2 ⟨by decide, ih hwords⟩
    · obtain ⟨hchar, hwords⟩ := (hasWords_cons_iff hc).1 h
      obtain ⟨-, -, -, -, hsmall⟩ := of_isUpper_or_isDigit (hchar.imp_right And.right)
      exact List.forall_mem_cons.2 ⟨hsmall, ih hwords⟩

/-- Symbols of words in capitals have different variants. -/
theorem IsScreaming.eq_of_variantName_eq {a b : String} (ha : IsScreaming a) (hb : IsScreaming b)
    (h : variantName a = variantName b) : a = b := by
  have hsmall : ∀ {name}, IsScreaming name → ¬ name.toList.any Char.isLower := by
    intro name hname
    simpa using isLower_eq_false_of_hasWords hname
  rw [variantName, variantName, if_neg (hsmall ha), if_neg (hsmall hb)] at h
  exact String.toList_inj.1 (eq_of_pascalChars_eq ha hb (String.ofList_injective h))

end Target.Name

namespace Target

/-! ## Inverse conversions -/

namespace EnumCode

/-- The pattern for a variant. -/
def pattern (variant : String) : String := "Self::" ++ variant

/-- The result that is a variant. -/
def found (variant : String) : String := "Some(Self::" ++ variant ++ ")"

/-- What a variant is converted to: the result of the first arm for it. -/
def asStr? (c : EnumCode) (variant : String) : Option String := c.arms.lookup (pattern variant)

/-- What a text is converted to: the result of the first arm for it, or of the arm for all else. -/
def fromSymbol? (c : EnumCode) (text : String) : Option String :=
  (c.arms.lookup (plainLiteral text)).or (c.arms.lookup "_")

/-- The conversions between variants and symbols are inverse. -/
structure IsInverse (c : EnumCode) (symbols : List String) : Prop where
  nodup : c.variants.Nodup
  /-- The variants stand for the symbols in their order. -/
  inOrder : c.variants.map c.asStr? = symbols.map fun s => some (plainLiteral s)
  asStr : ∀ v ∈ c.variants, ∃ s ∈ symbols,
    c.asStr? v = some (plainLiteral s) ∧ c.fromSymbol? s = some (found v)
  fromSymbol : ∀ s ∈ symbols, ∃ v ∈ c.variants,
    c.fromSymbol? s = some (found v) ∧ c.asStr? v = some (plainLiteral s)
  /-- Other texts stand for no variant. -/
  other : ∀ s, s ∉ symbols → c.fromSymbol? s = some "None"
  /-- The constant lists what the variants are converted to. -/
  listed : ∃ shown, c.variants.map c.asStr? = shown.map some ∧
    c.constants = [String.intercalate ", " shown]

end EnumCode

/-! ## What the code of an enum of symbols shows -/

/-- The lines that the code of an enum of symbols shows: the variants, the constant, and the arms of
both matches. -/
def EnumDef.shown (e : EnumDef) : List EnumLine :=
  e.variants.map .variant ++
  .constant (String.intercalate ", " (e.symbols.map plainLiteral)) ::
  (e.symbols.map fun s => .arm (EnumCode.pattern (Name.variantName s)) (plainLiteral s)) ++
  (e.symbols.map fun s => .arm (plainLiteral s) (EnumCode.found (Name.variantName s))) ++
  [.arm "_" "None"]

section Parts

variable {s : String} {e : EnumDef}

theorem blank_and_feed_notMem_symbol (h : IdlCompiler.Name.isIdentifier s) :
    ' ' ∉ s.toList ∧ '\n' ∉ s.toList :=
  blank_and_feed_notMem (Name.forall_isPart_of_isIdentifier h)

theorem blank_and_feed_notMem_variantName (h : IdlCompiler.Name.isIdentifier s) :
    ' ' ∉ (Name.variantName s).toList ∧ '\n' ∉ (Name.variantName s).toList :=
  blank_and_feed_notMem (Name.isCapitalized_variantName h).isPart

theorem feed_notMem_plainLiteral (h : IdlCompiler.Name.isIdentifier s) :
    '\n' ∉ (plainLiteral s).toList := by
  simp [plainLiteral, String.toList_append, (blank_and_feed_notMem_symbol h).2]

theorem shows_variants (h : ∀ s ∈ e.symbols, IdlCompiler.Name.isIdentifier s) :
    Shows (lines (e.variants.map fun v => line 1 (v ++ ","))) (e.variants.map .variant) := by
  refine .lines_map fun v hv => ?_
  obtain ⟨s, hs, rfl⟩ := List.mem_map.1 hv
  obtain ⟨hblank, hfeed⟩ := blank_and_feed_notMem_variantName (h s hs)
  exact .variant hblank hfeed

theorem shows_constant (h : ∀ s ∈ e.symbols, IdlCompiler.Name.isIdentifier s) :
    Shows (line 1 (EnumLine.constantOpening
      ++ String.intercalate ", " (e.symbols.map plainLiteral) ++ "];"))
      [.constant (String.intercalate ", " (e.symbols.map plainLiteral))] := by
  have hfeed : '\n' ∉ (String.intercalate ", " (e.symbols.map plainLiteral)).toList := by
    rw [String.toList_intercalate]
    refine Text.notMem_intercalate (by decide) fun t ht => ?_
    simp only [List.mem_map, exists_exists_and_eq_and] at ht
    obtain ⟨s, hs, rfl⟩ := ht
    exact feed_notMem_plainLiteral (h s hs)
  generalize String.intercalate ", " (e.symbols.map plainLiteral) = listed at hfeed ⊢
  have hchars : (EnumLine.constantOpening ++ listed ++ "];").toList =
      EnumLine.constantOpening.toList ++ (listed.toList ++ "];".toList) := by
    simp [String.toList_append]
  have hopening : '\n' ∉ EnumLine.constantOpening.toList ∧
      ∃ cs, EnumLine.constantOpening.toList = 'p' :: cs := ⟨by decide, _, rfl⟩
  obtain ⟨hopening, cs, hcs⟩ := hopening
  refine .line_one ?_ ?_ ?_
  · rw [hchars]
    simp [hopening, hfeed]
  · rw [hchars, hcs]
    simp
  · rw [hchars, EnumLine.readItem?_constant, String.ofList_toList]

theorem shows_asStr (h : ∀ s ∈ e.symbols, IdlCompiler.Name.isIdentifier s) :
    Shows (lines ((e.variants.zip e.symbols).map fun (v, s) =>
      line 3 ("Self::" ++ v ++ " => " ++ plainLiteral s ++ ",")))
      (e.symbols.map fun s => .arm (EnumCode.pattern (Name.variantName s)) (plainLiteral s)) := by
  have hzip : e.variants.zip e.symbols = e.symbols.map fun s => (Name.variantName s, s) := by
    simpa [EnumDef.variants] using List.zip_map' (f := Name.variantName) (g := id) (l := e.symbols)
  rw [hzip, List.map_map]
  refine .lines_map fun s hs => ?_
  obtain ⟨hblank, hfeed⟩ := blank_and_feed_notMem_variantName (h s hs)
  refine .arm ?_ ?_ ?_ (feed_notMem_plainLiteral (h s hs))
  · simp [← String.toList_inj, String.toList_append]
  · simp [String.toList_append, hblank]
  · simp [String.toList_append, hfeed]

theorem shows_fromSymbol (h : ∀ s ∈ e.symbols, IdlCompiler.Name.isIdentifier s) :
    Shows (lines ((e.symbols.zip e.variants).map fun (s, v) =>
      line 3 (plainLiteral s ++ " => Some(Self::" ++ v ++ "),")))
      (e.symbols.map fun s => .arm (plainLiteral s) (EnumCode.found (Name.variantName s))) := by
  have hzip : e.symbols.zip e.variants = e.symbols.map fun s => (s, Name.variantName s) := by
    simpa [EnumDef.variants] using List.zip_map' (f := id) (g := Name.variantName) (l := e.symbols)
  rw [hzip, List.map_map]
  refine .lines_map fun s hs => ?_
  have hblank := (blank_and_feed_notMem_symbol (h s hs)).1
  have hfeed := (blank_and_feed_notMem_variantName (h s hs)).2
  have hline : plainLiteral s ++ " => Some(Self::" ++ Name.variantName s ++ ")," =
      plainLiteral s ++ " => " ++ EnumCode.found (Name.variantName s) ++ "," := by
    simp [EnumCode.found, ← String.toList_inj, String.toList_append]
  change Shows (line 3 (plainLiteral s ++ " => Some(Self::" ++ Name.variantName s ++ "),")) _
  rw [hline]
  refine .arm ?_ ?_ (feed_notMem_plainLiteral (h s hs)) ?_
  · simp [plainLiteral, ← String.toList_inj, String.toList_append]
  · simp [plainLiteral, String.toList_append, hblank]
  · simp [EnumCode.found, String.toList_append, hfeed]

end Parts

/-- **What the code of an enum shows**, whatever its documentation says. -/
theorem EnumDef.shows_text {e : EnumDef} (hname : '\n' ∉ e.name.toList)
    (hsymbols : ∀ s ∈ e.symbols, IdlCompiler.Name.isIdentifier s) : Shows e.text e.shown := by
  have hnamed : Shows (line 0 s!"pub enum {e.name} \x7b") [] ∧
      Shows (line 0 s!"impl {e.name} \x7b") [] := by
    refine ⟨.line_zero ?_ ?_, .line_zero ?_ ?_⟩ <;> simp [toString, String.toList_append, hname]
  obtain ⟨henum, himpl⟩ := hnamed
  have hmust : Shows (line 1 "#[must_use]") [] := by decide
  have hlist : List.Forall₂ Shows _ _ :=
    .cons (.docLines e.doc) <| .cons (by decide : Shows (derives plainTraits) []) <|
    .cons henum <| .cons (shows_variants hsymbols) <| .cons (.closing 0) <| .cons .gap <|
    .cons himpl <| .cons (by decide : Shows (line 1 "/// Symbols in declaration order.") []) <|
    .cons (shows_constant hsymbols) <| .cons .gap <|
    .cons (by decide : Shows (line 1 "/// Returns the symbol as declared in the protocol.") []) <|
    .cons hmust <|
    .cons (by decide : Shows (line 1 "pub const fn as_str(&self) -> &'static str \x7b") []) <|
    .cons (by decide : Shows (line 2 "match *self \x7b") []) <| .cons (shows_asStr hsymbols) <|
    .cons (.closing 2) <| .cons (.closing 1) <| .cons .gap <|
    .cons (by decide : Shows (line 1 "/// Looks up a value by its declared symbol.") []) <|
    .cons hmust <|
    .cons (by decide :
      Shows (line 1 "pub fn from_symbol(symbol: &str) -> Option<Self> \x7b") []) <|
    .cons (by decide : Shows (line 2 "match symbol \x7b") []) <|
    .cons (shows_fromSymbol hsymbols) <|
    .cons (by decide : Shows (line 3 "_ => None,") [.arm "_" "None"]) <|
    .cons (.closing 2) <| .cons .methodClosing <| .cons (.displayOpening hname) <|
    .cons (by decide : Shows (line 2 "f.write_str(self.as_str())") []) <|
    .cons .methodClosing .nil
  refine Eq.subst (motive := Shows e.text) ?_ (Shows.lines hlist)
  simp [EnumDef.shown]

/-! ## What the conversions are -/

theorem lookup_map {α : Type} (f g : α → String) (as : List α) (key : String) :
    (as.map fun a => (f a, g a)).lookup key = (as.find? fun a => f a = key).map g := by
  induction as with
  | nil => rfl
  | cons a as ih =>
    rw [List.map_cons, List.lookup_cons, List.find?_cons]
    by_cases h : f a = key
    · simp [h]
    · have hne : (key == f a) = false := beq_eq_false_iff_ne.2 (Ne.symm h)
      simp [h, hne, ih]

theorem find?_eq_some_of_unique {α : Type} {P : α → Bool} {as : List α} {a : α} (ha : a ∈ as)
    (h : P a) (hunique : ∀ b ∈ as, P b → b = a) : as.find? P = some a := by
  cases hfind : as.find? P with
  | none => exact absurd h (List.find?_eq_none.1 hfind a ha)
  | some b => rw [hunique b (List.mem_of_find?_eq_some hfind) (List.find?_some hfind)]

section

variable {e : EnumDef} (hname : '\n' ∉ e.name.toList)
  (hsymbols : ∀ s ∈ e.symbols, IdlCompiler.Name.isIdentifier s)

include hname hsymbols

theorem EnumDef.read_text : EnumCode.read e.text = {
    variants := e.variants
    constants := [String.intercalate ", " (e.symbols.map plainLiteral)]
    arms := (e.symbols.map fun s => (EnumCode.pattern (Name.variantName s), plainLiteral s)) ++
      ((e.symbols.map fun s => (plainLiteral s, EnumCode.found (Name.variantName s))) ++
        [("_", "None")]) } := by
  rw [EnumCode.read, (EnumDef.shows_text hname hsymbols).readAll, EnumDef.shown]
  simp [List.filterMap_append, List.filterMap_map, List.filterMap_cons, Function.comp_def,
    EnumLine.variant?, EnumLine.constant?, EnumLine.arm?]

/-- The first symbol of a variant is what the variant is converted to. -/
theorem EnumDef.asStr?_read_text (v : String) : (EnumCode.read e.text).asStr? v =
    (e.symbols.find? fun s => Name.variantName s = v).map plainLiteral := by
  have hother : ((e.symbols.map fun s => (plainLiteral s, EnumCode.found (Name.variantName s))) ++
      [("_", "None")]).lookup (EnumCode.pattern v) = none := by
    rw [List.lookup_eq_none_iff]
    intro arm harm
    obtain ⟨s, -, rfl⟩ | rfl : (∃ s ∈ e.symbols, (plainLiteral s, _) = arm) ∨ arm = ("_", "None") :=
      by simpa using harm
    all_goals simp [EnumCode.pattern, plainLiteral, ← String.toList_inj, String.toList_append]
  have hpattern : ∀ s, EnumCode.pattern (Name.variantName s) = EnumCode.pattern v ↔
      Name.variantName s = v := fun s => String.append_right_inj _
  rw [EnumCode.asStr?, EnumDef.read_text hname hsymbols, List.lookup_append, hother, Option.or_none,
    lookup_map]
  simp only [hpattern]

/-- A symbol is converted to its variant, and every other text to none. -/
theorem EnumDef.fromSymbol?_read_text (s : String) : (EnumCode.read e.text).fromSymbol? s =
    some (if s ∈ e.symbols then EnumCode.found (Name.variantName s) else "None") := by
  have hliteral : ∀ t, plainLiteral t = plainLiteral s ↔ t = s := by simp [plainLiteral]
  have hlast : ∀ t, plainLiteral t ≠ "_" := by
    intro t heq
    have hhead : (plainLiteral t).toList.head? = some '"' := by
      simp [plainLiteral, String.toList_append]
    rw [heq] at hhead
    exact absurd hhead (by decide)
  have hpatterns : ∀ key, key = plainLiteral s ∨ key = "_" →
      (e.symbols.map fun s => (EnumCode.pattern (Name.variantName s), plainLiteral s)).lookup key =
        none := by
    intro key hkey
    rw [List.lookup_eq_none_iff]
    intro arm harm
    obtain ⟨t, -, rfl⟩ := List.mem_map.1 harm
    obtain rfl | rfl := hkey <;>
      simp [EnumCode.pattern, plainLiteral, ← String.toList_inj, String.toList_append]
  rw [EnumCode.fromSymbol?, EnumDef.read_text hname hsymbols]
  simp only [List.lookup_append, hpatterns _ (.inl rfl), hpatterns _ (.inr rfl), lookup_map,
    Option.none_or, hliteral]
  by_cases hs : s ∈ e.symbols
  · have hfind : e.symbols.find? (fun t => decide (t = s)) = some s :=
      find?_eq_some_of_unique hs (by simp) (by simp)
    simp [hfind, hs]
  · have hfind : e.symbols.find? (fun t => decide (t = s)) = none := by
      simpa using fun t (ht : t ∈ e.symbols) (heq : t = s) => hs (heq ▸ ht)
    have hfind' : e.symbols.find? (fun t => decide (plainLiteral t = "_")) = none := by
      simpa using fun t _ => hlast t
    have hnone : [("_", "None")].lookup (plainLiteral s) = none :=
      List.lookup_eq_none_iff.2 (by simpa using hlast s)
    simp [hfind, hfind', hs, hnone]

/-- Symbols with different variants are converted there and back. -/
theorem EnumDef.isInverse_of_nodup (h : (e.symbols.map Name.variantName).Nodup) :
    (EnumCode.read e.text).IsInverse e.symbols := by
  have hvariants : (EnumCode.read e.text).variants = e.symbols.map Name.variantName :=
    congrArg EnumCode.variants (EnumDef.read_text hname hsymbols)
  have hconstants : (EnumCode.read e.text).constants =
      [String.intercalate ", " (e.symbols.map plainLiteral)] :=
    congrArg EnumCode.constants (EnumDef.read_text hname hsymbols)
  have hfrom := EnumDef.fromSymbol?_read_text hname hsymbols
  have hasStr : ∀ s ∈ e.symbols, (EnumCode.read e.text).asStr? (Name.variantName s) =
      some (plainLiteral s) := by
    intro s hs
    have hfind : (e.symbols.find? fun t => Name.variantName t = Name.variantName s) = some s := by
      refine find?_eq_some_of_unique hs (by simp) fun t ht heq => ?_
      exact List.inj_on_of_nodup_map h ht hs (of_decide_eq_true heq)
    rw [EnumDef.asStr?_read_text hname hsymbols, hfind, Option.map_some]
  generalize EnumCode.read e.text = c at hvariants hconstants hfrom hasStr ⊢
  have hinOrder : c.variants.map c.asStr? = e.symbols.map fun s => some (plainLiteral s) := by
    rw [hvariants, List.map_map]
    exact List.map_congr_left hasStr
  have hknown : ∀ s ∈ e.symbols, c.fromSymbol? s = some (EnumCode.found (Name.variantName s)) := by
    intro s hs
    rw [hfrom, if_pos hs]
  refine ⟨?_, hinOrder, fun v hv => ?_, fun s hs => ?_, fun s hs => ?_, ?_⟩
  · rwa [hvariants]
  · rw [hvariants] at hv
    obtain ⟨s, hs, rfl⟩ := List.mem_map.1 hv
    exact ⟨s, hs, hasStr s hs, hknown s hs⟩
  · refine ⟨Name.variantName s, ?_, hknown s hs, hasStr s hs⟩
    rw [hvariants]
    exact List.mem_map_of_mem hs
  · rw [hfrom, if_neg hs]
  · exact ⟨e.symbols.map plainLiteral, by rw [hinOrder, List.map_map]; rfl, hconstants⟩

end

variable {p : Protocol}

/-- The enums are the types with symbols. -/
theorem exists_type_of_mem_enums {e : EnumDef}
    (he : e ∈ (Module.ofResolved (.ofProtocol p)).enums) :
    ∃ t ∈ p.types, e.name = t.targetName ∧ t.body = .symbols e.symbols := by
  obtain ⟨_, hmem, he⟩ := List.mem_filterMap.1 he
  obtain ⟨t, ht, rfl⟩ := List.mem_map.1 hmem
  refine ⟨t, ht, ?_⟩
  cases hkind : t.body <;>
    simp only [enumOf?, ResolvedType.ofType, hkind, ResolvedBody.ofBody, reduceCtorEq,
      Option.some.injEq] at he
  subst he
  exact ⟨rfl, rfl⟩

theorem allowsSymbols_of_mem_enums (hp : p.WellFormed) {e : EnumDef}
    (he : e ∈ (Module.ofResolved (.ofProtocol p)).enums) : '\n' ∉ e.name.toList ∧
      (∀ s ∈ e.symbols, IdlCompiler.Name.isIdentifier s) ∧ e.symbols.Nodup := by
  obtain ⟨t, ht, hname, hbody⟩ := exists_type_of_mem_enums he
  have hallowed := (hp.types t ht).body
  rw [hbody] at hallowed
  refine ⟨fun hmem => ?_, hallowed⟩
  rw [hname] at hmem
  exact absurd ((Name.isCapitalized_pascalCase (hp.types t ht).isIdentifier).isAlphanum _ hmem)
    (by decide)

/-- **When the conversions are inverse.**  The conversions in the code of an enum of a well-formed
protocol are inverse exactly if the variants of its symbols differ. -/
theorem isInverse_iff (hvalid : p.validate = .ok ()) {e : EnumDef}
    (he : e ∈ (Module.ofResolved (.ofProtocol p)).enums) :
    (EnumCode.read e.text).IsInverse e.symbols ↔ (e.symbols.map Name.variantName).Nodup := by
  obtain ⟨hname, hsymbols, -⟩ :=
    allowsSymbols_of_mem_enums (Protocol.validate_eq_ok_iff.1 hvalid) he
  refine ⟨fun h => ?_, EnumDef.isInverse_of_nodup hname hsymbols⟩
  have hnodup := h.nodup
  rwa [EnumDef.read_text hname hsymbols] at hnodup

/-- The enum of a symbol in two styles. -/
def fooEnum : EnumDef := ⟨"E", none, ["FOO_BAR", "FooBar"]⟩

/-- The enum of symbols in two styles. -/
def lightEnum : EnumDef := ⟨"Light", some "Light colour.", ["RED", "auto_cycle"]⟩

/-- A protocol with the two enums. -/
def lights : Protocol :=
  (Protocol.empty "Traffic" none).addTypes
    [{ name := "E", body := .symbols fooEnum.symbols },
     { name := "Light", doc := lightEnum.doc, body := .symbols lightEnum.symbols }]

/-- The symbols of the first enum get one variant, and those of the second are converted there and
back. -/
theorem lights_isInverse :
    lights.validate = .ok () ∧
      (Module.ofResolved (.ofProtocol lights)).enums = [fooEnum, lightEnum] ∧
      ¬ (EnumCode.read fooEnum.text).IsInverse fooEnum.symbols ∧
      (EnumCode.read lightEnum.text).IsInverse lightEnum.symbols := by
  have hvalid : lights.validate = .ok () := rfl
  have henums : (Module.ofResolved (.ofProtocol lights)).enums = [fooEnum, lightEnum] := rfl
  refine ⟨hvalid, henums, fun h => ?_, ?_⟩
  · have hnodup := (isInverse_iff hvalid (henums ▸ List.mem_cons_self)).1 h
    exact absurd hnodup (by decide)
  · refine (isInverse_iff hvalid (henums ▸ List.mem_cons_of_mem _ (List.mem_singleton_self _))).2 ?_
    decide

/-- Where all symbols are words in capitals, the conversions are inverse. -/
theorem isInverse_of_isScreaming (hvalid : p.validate = .ok ()) {e : EnumDef}
    (he : e ∈ (Module.ofResolved (.ofProtocol p)).enums) (h : ∀ s ∈ e.symbols, Name.IsScreaming s) :
    (EnumCode.read e.text).IsInverse e.symbols := by
  obtain ⟨hname, hsymbols, hnodup⟩ :=
    allowsSymbols_of_mem_enums (Protocol.validate_eq_ok_iff.1 hvalid) he
  refine EnumDef.isInverse_of_nodup hname hsymbols (hnodup.map_on fun a ha b hb => ?_)
  exact (h a ha).eq_of_variantName_eq (h b hb)

end Target

end IdlCompiler
