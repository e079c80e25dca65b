/-
# Reading enums

What the code of an enum does is read off its text line by line.  A variant and the constant that
lists symbols are indented once, and the arms of matches three times.  Other lines stand for
nothing, among them documentation, whatever it says.

Main statements: lines one below the other stand for what each of them stands for
(`Target.Shows.lines`), a line for what it is read as (`Target.Shows.line`), and documentation for
nothing (`Target.Shows.docLines`).
-/
import IdlCompiler.Proofs.Paths
import IdlCompiler.Target.Source

namespace IdlCompiler

namespace Text

theorem notMem_dropLast_of_mem_pieces {cs p : List Char} (h : p ∈ pieces cs) :
    '\n' ∉ p.dropLast := by
  induction cs generalizing p with
  | nil => cases h
  | cons c cs ih =>
    rw [pieces_cons] at h
    split at h
    · obtain rfl | h := List.mem_cons.1 h
      · simp
      · exact ih h
    · rename_i hc
      split at h
      · obtain rfl := List.mem_singleton.1 h
        simp
      · rename_i q qs hpieces
        obtain rfl | h := List.mem_cons.1 h
        · cases q with
          | nil => simp
          | cons d q => simpa [Ne.symm hc] using ih (hpieces ▸ List.mem_cons_self)
        · exact ih (hpieces ▸ List.mem_cons_of_mem _ h)

/-- No line holds a line feed. -/
theorem notMem_of_mem_lines {cs l : List Char} (h : l ∈ lines cs) : '\n' ∉ l := by
  obtain ⟨p, hp, rfl⟩ := List.mem_map.1 h
  have hp := notMem_dropLast_of_mem_pieces hp
  rw [← List.reverse_reverse p] at hp
  rw [dropLineEnd]
  split
  · rename_i hreverse
    simpa [hreverse] using hp
  · rename_i hreverse
    simpa [hreverse] using hp
  · rename_i hfeed
    cases hend : p.reverse with
    | nil => simp
    | cons c cs =>
      have hc : c ≠ '\n' := fun hc => hfeed cs (by rw [hend, hc])
      simpa [hend, Ne.symm hc] using hp

theorem notMem_intercalate {sep : List Char} {ts : List (List Char)} {c : Char} (hsep : c ∉ sep)
    (h : ∀ t ∈ ts, c ∉ t) : c ∉ sep.intercalate ts := by
  induction ts with
  | nil => simp [List.intercalate]
  | cons t ts ih =>
    cases ts with
    | nil => simpa using h
    | cons u ts =>
      obtain ⟨ht, hts⟩ := List.forall_mem_cons.1 h
      rw [List.intercalate_cons_cons]
      simp [hsep, ht, ih hts]

theorem mem_of_mem_trimEnd {cs : List Char} {c : Char} (h : c ∈ trimEnd cs) : c ∈ cs := by
  rw [trimEnd, List.mem_reverse] at h
  exact List.mem_reverse.1 ((List.dropWhile_sublist _).subset h)

end Text

namespace Target

/-! ## What lines stand for -/

/-- What a line of the code of an enum stands for. -/
inductive EnumLine where
  | variant (name : String)
  /-- The constant that lists the symbols, with what stands between its brackets. -/
  | constant (listed : String)
  | arm (pattern result : String)
deriving DecidableEq, Repr

namespace EnumLine

/-- The variant that a line declares. -/
def variant? : EnumLine → Option String
  | variant name => some name
  | _ => none

/-- What the constant in a line lists. -/
def constant? : EnumLine → Option String
  | constant listed => some listed
  | _ => none

/-- The arm in a line. -/
def arm? : EnumLine → Option (String × String)
  | arm pattern result => some (pattern, result)
  | _ => none

/-- How the constant starts that lists the symbols. -/
def constantOpening : String := "pub const SYMBOLS: &'static [&'static str] = &["

/-- Reads the constant that lists the symbols, or else a variant with the comma behind it. -/
def readItem? (body : List Char) : Option EnumLine :=
  match body.dropPrefix? constantOpening.toList with
  | some rest => (rest.dropSuffix? "];".toList).map fun listed => constant (String.ofList listed)
  | none => (body.dropSuffix? [',']).map fun name => variant (String.ofList name)

/-- Reads an arm: a pattern without blanks, an arrow, a result, and a comma. -/
def readArm? (body : List Char) : Option EnumLine :=
  let (pattern, rest) := Text.cut (· ≠ ' ') body
  ((rest.dropPrefix? " => ".toList).bind (·.dropSuffix? [','])).map fun result =>
    arm (String.ofList pattern) (String.ofList result)

/-- Reads a line.  Variants and the constant are indented once, and arms three times. -/
def read? (line : List Char) : Option EnumLine :=
  let (blanks, body) := Text.cut (· = ' ') line
  if blanks.length = 4 then readItem? body
  else if blanks.length = 12 then readArm? body
  else none

/-- The lines of a text that stand for something. -/
def readAll (text : String) : List EnumLine := (Text.splitOn '\n' text.toList).filterMap read?

end EnumLine

/-- What the code of an enum does. -/
structure EnumCode where
  variants : List String
  /-- What the constants with the symbols list. -/
  constants : List String
  /-- The patterns of both matches with their results, in order. -/
  arms : List (String × String)
deriving DecidableEq, Repr

namespace EnumCode

/-- Reads the code of an enum. -/
def read (text : String) : EnumCode where
  variants := (EnumLine.readAll text).filterMap EnumLine.variant?
  constants := (EnumLine.readAll text).filterMap EnumLine.constant?
  arms := (EnumLine.readAll text).filterMap EnumLine.arm?

/-- The names of the variants, without what they hold. -/
def names (c : EnumCode) : List String :=
  c.variants.map fun v => String.ofList (v.toList.takeWhile (· ≠ '('))

end EnumCode

/-! ## What a text shows -/

/-- A text ends with the end of a line, and its lines stand for the given ones. -/
structure Shows (text : String) (found : List EnumLine) : Prop where
  closed : text.toList = [] ∨ text.toList.getLast? = some '\n'
  readAll : EnumLine.readAll text = found

instance (text : String) (found : List EnumLine) : Decidable (Shows text found) :=
  decidable_of_iff (_ ∧ _) ⟨fun h => ⟨h.1, h.2⟩, fun h => ⟨h.1, h.2⟩⟩

namespace Shows

variable {text other : String} {found found' : List EnumLine}

theorem append (h : Shows text found) (h' : Shows other found') :
    Shows (text ++ other) (found ++ found') := by
  have hnil : EnumLine.read? [] = none := by decide
  constructor
  · rw [String.toList_append]
    obtain hother | hother := h'.closed
    · rw [hother, List.append_nil]
      exact h.closed
    · exact .inr (by rw [List.getLast?_append, hother, Option.some_or])
  · rw [← h.readAll, ← h'.readAll, EnumLine.readAll, EnumLine.readAll, EnumLine.readAll,
      String.toList_append]
    obtain htext | htext := h.closed
    · simp [htext, Text.splitOn, hnil]
    · obtain ⟨init, hinit⟩ := List.getLast?_eq_some_iff.1 htext
      rw [hinit, List.append_assoc, List.singleton_append, Text.splitOn_append_sep,
        Text.splitOn_append_sep]
      simp [Text.splitOn, hnil]

theorem lines {texts : List String} {founds : List (List EnumLine)}
    (h : List.Forall₂ Shows texts founds) : Shows (lines texts) founds.flatten := by
  induction h with
  | nil => exact ⟨.inl rfl, by decide⟩
  | cons h _ ih =>
    rw [Target.lines, String.join_cons]
    exact h.append ih

theorem lines_flatMap {α : Type} {as : List α} {f : α → String} {g : α → List EnumLine}
    (h : ∀ a ∈ as, Shows (f a) (g a)) : Shows (Target.lines (as.map f)) (as.flatMap g) := by
  have hall : List.Forall₂ Shows (as.map f) (as.map g) := by
    rw [List.forall₂_map_left_iff, List.forall₂_map_right_iff, List.forall₂_same]
    exact h
  exact List.flatMap_def ▸ lines hall

theorem lines_map {α : Type} {as : List α} {f : α → String} {g : α → EnumLine}
    (h : ∀ a ∈ as, Shows (f a) [g a]) : Shows (Target.lines (as.map f)) (as.map g) := by
  rw [List.map_eq_flatMap (f := g)]
  exact lines_flatMap h

theorem lines_nil {α : Type} {as : List α} {f : α → String} (h : ∀ a ∈ as, Shows (f a) []) :
    Shows (Target.lines (as.map f)) [] := by
  have hnil : as.flatMap (fun _ => ([] : List EnumLine)) = [] := by simp
  exact hnil ▸ lines_flatMap h

/-- A line shows what it is read as. -/
theorem line (indent : Nat) (h : '\n' ∉ text.toList) : Shows (line indent text)
    (EnumLine.read? (List.replicate (4 * indent) ' ' ++ text.toList)).toList := by
  have hchars : (Target.line indent text).toList =
      List.replicate (4 * indent) ' ' ++ text.toList ++ '\n' :: [] := by
    simp [Target.line]
  have hfeed : '\n' ∉ List.replicate (4 * indent) ' ' ++ text.toList := by
    simp [h, List.mem_replicate]
  constructor
  · exact .inr (by rw [hchars, List.getLast?_append]; rfl)
  · have hnil : EnumLine.read? [] = none := by decide
    rw [EnumLine.readAll, hchars, Text.splitOn_append_cons hfeed]
    cases hread : EnumLine.read? (List.replicate (4 * indent) ' ' ++ text.toList) <;>
      simp [hread, Text.splitOn, hnil]

end Shows

/-! ## What the lines of an enum stand for -/

namespace EnumLine

variable {body pattern result : List Char}

theorem read?_indented {n : Nat} (h : body.head? ≠ some ' ') :
    read? (List.replicate n ' ' ++ body) =
      if n = 4 then readItem? body else if n = 12 then readArm? body else none := by
  have hbody : Text.cut (· = ' ') body = ([], body) := by
    cases body with
    | nil => rfl
    | cons c cs =>
      have hc : c ≠ ' ' := by simpa using h
      simp [Text.cut, hc]
  have hblanks : ∀ c ∈ List.replicate n ' ', decide (c = ' ') := by simp [List.mem_replicate]
  rw [read?, Text.cut_append_of_forall hblanks, hbody]
  simp

theorem readItem?_variant {name : List Char} (h : ' ' ∉ name) :
    readItem? (name ++ [',']) = some (variant (String.ofList name)) := by
  have hfront : (name ++ [',']).dropPrefix? constantOpening.toList = none := by
    rw [Option.eq_none_iff_forall_ne_some]
    intro rest hrest
    obtain ⟨opening, heq, hopening⟩ := List.dropPrefix?_eq_some_iff.1 hrest
    -- the constant has blanks in front of the bracket
    have hblank : ' ' ∈ opening := by
      rw [eq_of_beq hopening]
      decide
    have hmem : ' ' ∈ name ++ [','] := heq ▸ List.mem_append_left _ hblank
    simp [h] at hmem
  have hback : (name ++ [',']).dropSuffix? [','] = some name :=
    List.dropSuffix?_eq_some_iff.2 ⟨_, rfl, beq_self_eq_true _⟩
  rw [readItem?, hfront, hback]
  rfl

theorem readItem?_constant (listed : List Char) :
    readItem? (constantOpening.toList ++ (listed ++ "];".toList)) =
      some (constant (String.ofList listed)) := by
  have hfront := List.dropPrefix?_append_of_beq (listed ++ "];".toList)
    (beq_self_eq_true constantOpening.toList)
  have hback : (listed ++ "];".toList).dropSuffix? "];".toList = some listed :=
    List.dropSuffix?_eq_some_iff.2 ⟨_, rfl, beq_self_eq_true _⟩
  rw [readItem?, hfront]
  simp only [hback, Option.map_some]

/-- No item starts with a letter other than the one of the constant and ends without a comma. -/
theorem readItem?_eq_none (hhead : body.head? ≠ some 'p') (hlast : body.getLast? ≠ some ',') :
    readItem? body = none := by
  have hfront : body.dropPrefix? constantOpening.toList = none := by
    rw [Option.eq_none_iff_forall_ne_some]
    intro rest hrest
    obtain ⟨opening, rfl, hopening⟩ := List.dropPrefix?_eq_some_iff.1 hrest
    rw [eq_of_beq hopening] at hhead
    exact hhead rfl
  have hback : body.dropSuffix? [','] = none := by
    rw [Option.eq_none_iff_forall_ne_some]
    intro front hsplit
    obtain ⟨comma, rfl, hcomma⟩ := List.dropSuffix?_eq_some_iff.1 hsplit
    rw [eq_of_beq hcomma] at hlast
    exact hlast List.getLast?_concat
  rw [readItem?, hfront, hback]
  rfl

theorem readArm?_arm (h : ' ' ∉ pattern) :
    readArm? (pattern ++ (" => ".toList ++ (result ++ [',']))) =
      some (arm (String.ofList pattern) (String.ofList result)) := by
  have hpattern : ∀ c ∈ pattern, decide (c ≠ ' ') := fun c hc =>
    decide_eq_true fun heq => h (heq ▸ hc)
  have hcut : Text.cut (· ≠ ' ') (" => ".toList ++ (result ++ [','])) =
      ([], " => ".toList ++ (result ++ [','])) := rfl
  have hfront := List.dropPrefix?_append_of_beq (result ++ [','])
    (beq_self_eq_true " => ".toList)
  have hback : (result ++ [',']).dropSuffix? [','] = some result :=
    List.dropSuffix?_eq_some_iff.2 ⟨_, rfl, beq_self_eq_true _⟩
  rw [readArm?, Text.cut_append_of_forall hpattern, hcut]
  simp only [hfront, hback, Option.bind_some, Option.map_some, List.append_nil]

end EnumLine

namespace Shows

open EnumLine

variable {text : String}

/-- A line that is not indented shows nothing. -/
theorem line_zero (h : '\n' ∉ text.toList) (hhead : text.toList.head? ≠ some ' ') :
    Shows (Target.line 0 text) [] := by
  have hline := line 0 h
  rwa [read?_indented hhead] at hline

theorem line_one {item : EnumLine} (h : '\n' ∉ text.toList) (hhead : text.toList.head? ≠ some ' ')
    (hread : readItem? text.toList = some item) : Shows (Target.line 1 text) [item] := by
  have hline := line 1 h
  rwa [read?_indented hhead, if_pos rfl, hread] at hline

theorem line_one_of_ne (h : '\n' ∉ text.toList) (hhead : text.toList.head? ≠ some ' ')
    (hstart : text.toList.head? ≠ some 'p') (hlast : text.toList.getLast? ≠ some ',') :
    Shows (Target.line 1 text) [] := by
  have hline := line 1 h
  rwa [read?_indented hhead, if_pos rfl, readItem?_eq_none hstart hlast] at hline

/-- A line that is indented twice shows nothing. -/
theorem line_two (h : '\n' ∉ text.toList) (hhead : text.toList.head? ≠ some ' ') :
    Shows (Target.line 2 text) [] := by
  have hline := line 2 h
  rwa [read?_indented hhead, if_neg (by decide), if_neg (by decide)] at hline

theorem line_three {arm : EnumLine} (h : '\n' ∉ text.toList)
    (hhead : text.toList.head? ≠ some ' ') (hread : readArm? text.toList = some arm) :
    Shows (Target.line 3 text) [arm] := by
  have hline := line 3 h
  rwa [read?_indented hhead, if_neg (by decide), if_pos rfl, hread] at hline

theorem gap : Shows gap [] := by decide

/-- A closing brace shows nothing. -/
theorem closing (indent : Nat) : Shows (Target.line indent "\x7d") [] := by
  have hitem : readItem? "\x7d".toList = none := by decide
  have harm : readArm? "\x7d".toList = none := by decide
  have hline := line indent (show '\n' ∉ "\x7d".toList by decide)
  rw [read?_indented (by decide), hitem, harm] at hline
  simpa using hline

theorem methodClosing : Shows methodClosing [] :=
  .lines (.cons (.closing 1) (.cons (.closing 0) (.cons .gap .nil)))

/-- A variant with its comma. -/
theorem variant {name : String} (hblank : ' ' ∉ name.toList) (hfeed : '\n' ∉ name.toList) :
    Shows (Target.line 1 (name ++ ",")) [.variant name] := by
  refine line_one (by simpa [String.toList_append] using hfeed) (fun hhead => ?_) ?_
  · have hmem := List.mem_of_mem_head? (Option.mem_def.2 hhead)
    simp [String.toList_append, hblank] at hmem
  · simpa [String.toList_append] using readItem?_variant hblank

/-- An arm with its comma. -/
theorem arm {pattern result : String} (hne : pattern ≠ "") (hblank : ' ' ∉ pattern.toList)
    (hfeed : '\n' ∉ pattern.toList) (hresult : '\n' ∉ result.toList) :
    Shows (Target.line 3 (pattern ++ " => " ++ result ++ ",")) [.arm pattern result] := by
  have hchars : (pattern ++ " => " ++ result ++ ",").toList =
      pattern.toList ++ (" => ".toList ++ (result.toList ++ [','])) := by
    simp [String.toList_append]
  refine line_three ?_ (fun hhead => ?_) ?_
  · rw [hchars]
    simp only [List.mem_append, List.mem_singleton]
    simp [hfeed, hresult]
  · obtain ⟨c, cs, hcs⟩ := List.exists_cons_of_ne_nil (mt String.toList_eq_nil_iff.1 hne)
    rw [hchars, hcs, List.cons_append, List.head?_cons, Option.some.injEq] at hhead
    exact hblank (by simp [hcs, hhead])
  · rw [hchars, readArm?_arm hblank, String.ofList_toList, String.ofList_toList]

/-- The first line of a way to show a value shows nothing. -/
theorem displayOpening {name : String} (h : '\n' ∉ name.toList) :
    Shows (displayOpening name) [] := by
  have hfmt : Shows (Target.line 1
      "fn fmt(&self, f: &mut std::fmt::Formatter<'_>) -> std::fmt::Result \x7b") [] := by decide
  refine .lines (.cons (.line_zero ?_ ?_) (.cons hfmt .nil))
  all_goals simp [toString, String.toList_append, h]

/-- Documentation shows nothing, whatever it says. -/
theorem docLines (doc : Option String) : Shows (docLines 0 doc) [] := by
  have hdoc : ∀ l : List Char, '\n' ∉ l → Shows (String.ofList (docLine [] l)) [] := by
    intro l hl
    rw [docLine]
    split
    · decide
    · have hline : String.ofList ([] ++ '/' :: '/' :: '/' :: ' ' :: Text.trimEnd l ++ ['\n']) =
          Target.line 0 (String.ofList ('/' :: '/' :: '/' :: ' ' :: Text.trimEnd l)) := by
        simp [Target.line, ← String.toList_inj]
      rw [hline]
      refine line_zero ?_ (by simp)
      simpa using fun h => hl (Text.mem_of_mem_trimEnd h)
  have hall : ∀ ls : List (List Char), (∀ l ∈ ls, '\n' ∉ l) →
      Shows (String.ofList (ls.flatMap (docLine []))) [] := by
    intro ls hls
    induction ls with
    | nil => decide
    | cons l ls ih =>
      obtain ⟨hl, hls⟩ := List.forall_mem_cons.1 hls
      rw [List.flatMap_cons, String.ofList_append]
      exact (hdoc l hl).append (ih hls)
  cases doc with
  | none => decide
  | some text => exact hall _ fun l hl => Text.notMem_of_mem_lines hl

end Shows

/-- The characters of an identifier are no blanks and line feeds. -/
theorem blank_and_feed_notMem {cs : List Char} (h : ∀ c ∈ cs, IdlCompiler.Name.isPart c) :
    ' ' ∉ cs ∧ '\n' ∉ cs :=
  ⟨fun hmem => absurd (h _ hmem) (by decide), fun hmem => absurd (h _ hmem) (by decide)⟩

end Target

end IdlCompiler
