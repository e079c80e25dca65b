/-
# Reading back the text of a value

The text of a value over several lines is read as the value again, in front of any text
that does not go on with a number, as long as the brackets are not open too deep for the
reader; else the reader stops for that reason and no other.  `Json.Gives` says both at
once, so that one induction over the value proves both, `Json.rereads`.  For whole texts this is
`Json.read_toPrettyText_append` and `Json.read_toPrettyText_append_of_lt`.
-/
import IdlCompiler.Json.Printer
import IdlCompiler.Proofs.JsonParts
import Mathlib.Data.List.TakeWhile

namespace IdlCompiler.Json

variable {cs rest : List Char} {rounds levels level outer : Nat}

/-! ## Strings -/

theorem hexValue?_hexDigit : ∀ n < 16, hexValue? (hexDigit n) = some n := by decide

theorem four_le_byteCount {a b c d : Char} : 4 ≤ byteCount (a :: b :: c :: d :: cs) := by
  have ha := a.utf8Size_pos
  have hb := b.utf8Size_pos
  have hc := c.utf8Size_pos
  have hd := d.utf8Size_pos
  simp only [byteCount]
  omega

theorem readHex_hexDigit {n : Nat} (h : n < 32) :
    readHex ('0' :: '0' :: hexDigit (n / 16) :: hexDigit (n % 16) :: cs) = .ok (n, cs) := by
  have hzero : hexValue? '0' = some 0 := by decide
  have hlong : ¬ byteCount ('0' :: '0' :: hexDigit (n / 16) :: hexDigit (n % 16) :: cs) < 4 :=
    Nat.not_lt.mpr four_le_byteCount
  have hvalue : ((0 * 16 + 0) * 16 + n / 16) * 16 + n % 16 = n := by omega
  unfold readHex
  rw [if_neg hlong]
  simp only [hzero, hexValue?_hexDigit (n / 16) (by omega), hexValue?_hexDigit (n % 16) (by omega),
    hvalue]

theorem readUnicode_hexDigit {n : Nat} (h : n < 32) :
    readUnicode ('0' :: '0' :: hexDigit (n / 16) :: hexDigit (n % 16) :: cs) =
      .ok (Char.ofNat n, cs) := by
  unfold readUnicode
  rw [readHex_hexDigit h]
  have hlow : ¬ (0xDC00 ≤ n ∧ n ≤ 0xDFFF) := by omega
  have hhigh : n < 0xD800 ∨ 0xDBFF < n := by omega
  simp only [bind, Except.bind, if_neg hlow, if_pos hhigh]

/-- Whatever the form of a character in a string, one round reads it. -/
theorem readChars_escaped {c : Char} : readChars (rounds + 1) (escaped c ++ cs) = do
    let (ds, rest) ← readChars rounds cs
    return (c :: ds, rest) := by
  unfold escaped
  -- seven characters have a short form of their own
  split
  · subst c
    rfl
  split
  · subst c
    rfl
  split
  · subst c
    rfl
  split
  · subst c
    rfl
  split
  · subst c
    rfl
  split
  · rename_i hc
    obtain rfl : Char.ofNat 8 = c := by rw [← hc, Char.ofNat_toNat]
    rfl
  split
  · rename_i hc
    obtain rfl : Char.ofNat 12 = c := by rw [← hc, Char.ofNat_toNat]
    rfl
  -- other control characters are written with four digits
  split
  · rename_i hc
    change (readUnicode ('0' :: '0' :: hexDigit (c.toNat / 16) :: hexDigit (c.toNat % 16) :: cs)
      >>= fun r => readChars rounds r.2 >>= fun s => pure (r.1 :: s.1, s.2)) = _
    rw [readUnicode_hexDigit hc, Char.ofNat_toNat]
    rfl
  · rename_i hquote hslash _ _ _ _ _ hc
    rw [List.singleton_append, readChars, if_neg hquote, if_neg hslash, if_neg hc]

theorem readChars_flatMap_escaped {chars : List Char} (h : chars.length < rounds) :
    readChars rounds (chars.flatMap escaped ++ '"' :: rest) = .ok (chars, rest) := by
  induction chars generalizing rounds with
  | nil =>
    obtain ⟨rounds, rfl⟩ : ∃ n, rounds = n + 1 := Nat.exists_eq_add_one.mpr h
    rfl
  | cons c chars ih =>
    obtain ⟨rounds, rfl⟩ : ∃ n, rounds = n + 1 :=
      Nat.exists_eq_add_one.mpr (Nat.zero_lt_of_lt h)
    rw [List.flatMap_cons, List.append_assoc, readChars_escaped, ih (by simpa using h)]
    rfl

theorem escaped_ne_nil {c : Char} : escaped c ≠ [] := by
  unfold escaped
  repeat' split
  all_goals simp

theorem length_le_length_flatMap_escaped (chars : List Char) :
    chars.length ≤ (chars.flatMap escaped).length := by
  induction chars with
  | nil => simp
  | cons c chars ih =>
    have hpos := List.length_pos_iff.mpr (escaped_ne_nil (c := c))
    simp only [List.flatMap_cons, List.length_append, List.length_cons]
    omega

/-- A string is read back after its opening quotation mark. -/
theorem readString_flatMap_escaped {s : String} :
    readString (s.toList.flatMap escaped ++ '"' :: rest) = .ok (s, rest) := by
  have hrounds : s.toList.length < (s.toList.flatMap escaped ++ '"' :: rest).length + 1 := by
    have hlength := length_le_length_flatMap_escaped s.toList
    simp only [List.length_append]
    omega
  unfold readString
  rw [readChars_flatMap_escaped hrounds]
  simp [bind, Except.bind, pure, Except.pure]

/-! ## Gaps -/

theorem skipGap_newLine : skipGap (newLine level ++ cs) = skipGap cs := by
  refine List.dropWhile_append_of_pos fun c hc => ?_
  rcases List.mem_cons.mp hc with rfl | hc
  · rfl
  · rw [List.eq_of_mem_replicate hc]
    rfl

theorem skipGap_cons {c : Char} (h : ¬ isGap c) : skipGap (c :: cs) = c :: cs := by
  rw [skipGap, List.dropWhile_cons_of_neg h]

theorem readValue_congr {ds : List Char} (h : skipGap cs = skipGap ds) :
    readValue levels cs = readValue levels ds := by
  cases levels with
  | zero => rw [readValue_zero, readValue_zero, h]
  | succ levels => rw [readValue_succ, readValue_succ, h]

/-- Other characters than the sign and the digits start no number. -/
theorem ne_of_startsNumber {c d : Char} (hc : c = '-' ∨ c.isDigit)
    (hd : d ≠ '-' ∧ ¬ d.isDigit) : c ≠ d := by
  rintro rfl
  exact hc.elim hd.1 hd.2

theorem not_isGap_of_startsNumber {c : Char} (hc : c = '-' ∨ c.isDigit) : ¬ isGap c := by
  simp only [isGap, Bool.or_eq_true, decide_eq_true_eq, not_or]
  exact ⟨⟨⟨ne_of_startsNumber hc (by decide), ne_of_startsNumber hc (by decide)⟩,
    ne_of_startsNumber hc (by decide)⟩, ne_of_startsNumber hc (by decide)⟩

/-- The text of a value starts with a character that ends no gap and closes no bracket. -/
theorem exists_head_pretty (level : Nat) {v : Json} (h : v.NumbersReadBack) :
    ∃ c cs, pretty level v = c :: cs ∧ ¬ isGap c ∧ c ≠ ']' ∧ c ≠ '}' := by
  cases v with
  | null => exact ⟨_, _, rfl, by decide⟩
  | bool b => cases b <;> exact ⟨_, _, rfl, by decide⟩
  | number n =>
    obtain ⟨c, cs, heq, hc⟩ := exists_cons_of_readNumber (numbersReadBack_number.mp h)
    exact ⟨c, cs, heq, not_isGap_of_startsNumber hc, ne_of_startsNumber hc (by decide),
      ne_of_startsNumber hc (by decide)⟩
  | string s => exact ⟨_, _, rfl, by decide⟩
  | array items => cases items <;> exact ⟨_, _, rfl, by decide⟩
  | object members => cases members <;> exact ⟨_, _, rfl, by decide⟩

/-! ## Reading with a bound for the depth -/

/-- What reading gives where the brackets may be open too deep: a result and the text behind
it if the brackets fit, and else a stop for the depth. -/
structure Gives {α : Type} (fits : Prop) (a : α) (rest : List Char)
    (r : Except Stop (α × List Char)) : Prop where
  ok : fits → r = .ok (a, rest)
  tooDeep : ¬ fits → ∃ left, r = .error ⟨.tooDeep, left⟩

namespace Gives

variable {α β : Type} {fits fits' : Prop} {a : α} {b : β} {mid : List Char}
  {r : Except Stop (α × List Char)}

theorem of_eq (h : r = .ok (a, rest)) : Gives True a rest r :=
  ⟨fun _ => h, fun hn => absurd trivial hn⟩

theorem congr (h : Gives fits a rest r) (hiff : fits' ↔ fits) : Gives fits' a rest r :=
  ⟨fun hf => h.ok (hiff.mp hf), fun hf => h.tooDeep fun h' => hf (hiff.mpr h')⟩

/-- Steps one after the other read everything if the brackets fit in each. -/
theorem bind {next : α × List Char → Except Stop (β × List Char)} (h : Gives fits a mid r)
    (hnext : Gives fits' b rest (next (a, mid))) : Gives (fits ∧ fits') b rest (r >>= next) := by
  constructor
  · rintro ⟨hf, hf'⟩
    rw [h.ok hf]
    exact hnext.ok hf'
  · intro hnot
    by_cases hf : fits
    · rw [h.ok hf]
      exact hnext.tooDeep fun hf' => hnot ⟨hf, hf'⟩
    · obtain ⟨left, hleft⟩ := h.tooDeep hf
      exact ⟨left, by rw [hleft]; rfl⟩

theorem map (h : Gives fits a rest r) (f : α → β) :
    Gives fits (f a) rest (r >>= fun s => pure (f s.1, s.2)) := by
  have hpure : Gives True (f a) rest (pure (f a, rest)) := of_eq rfl
  exact (h.bind hpure).congr (by simp)

end Gives

/-- A value is read back as far as the depth allows, wherever its text stands. -/
def Rereads (v : Json) : Prop :=
  ∀ levels level rest, EndsNumber rest →
    Gives (v.depth ≤ levels) v rest (readValue levels (pretty level v ++ rest))

/-- Leaves are read back at every depth. -/
theorem rereads_of_readScalar {v : Json} (hdepth : v.depth = 0)
    (h : ∀ levels level rest, EndsNumber rest →
      readValue levels (pretty level v ++ rest) = .ok (v, rest)) : Rereads v := by
  intro levels level rest hrest
  exact (Gives.of_eq (h levels level rest hrest)).congr (by simp [hdepth])

theorem rereads_null : Rereads .null :=
  rereads_of_readScalar rfl fun levels _ _ _ => by cases levels <;> rfl

theorem rereads_bool {b : Bool} : Rereads (.bool b) :=
  rereads_of_readScalar rfl fun levels _ _ _ => by cases levels <;> cases b <;> rfl

theorem readValue_quoted {s : String} :
    readValue levels (quoted s ++ rest) = .ok (.string s, rest) := by
  have hread : readScalar (quoted s ++ rest) = .ok (.string s, rest) := by
    change (readString (s.toList.flatMap escaped ++ ['"'] ++ rest) >>= fun r =>
      pure (Json.string r.1, r.2)) = _
    rw [List.append_assoc, List.singleton_append, readString_flatMap_escaped]
    rfl
  rw [← hread]
  cases levels <;> rfl

theorem rereads_string {s : String} : Rereads (.string s) :=
  rereads_of_readScalar rfl fun _ _ _ _ => readValue_quoted

theorem readScalar_of_startsNumber {c : Char} (hc : c = '-' ∨ c.isDigit) :
    readScalar (c :: cs) = do
      let (n, rest) ← readNumber (c :: cs)
      return (.number n, rest) := by
  unfold readScalar
  split
  · contradiction
  · rename_i heq
    exact absurd (List.cons.inj heq).1 (ne_of_startsNumber hc (by decide))
  · rename_i heq
    exact absurd (List.cons.inj heq).1 (ne_of_startsNumber hc (by decide))
  · rename_i heq
    exact absurd (List.cons.inj heq).1 (ne_of_startsNumber hc (by decide))
  · rename_i heq
    exact absurd (List.cons.inj heq).1 (ne_of_startsNumber hc (by decide))
  · rename_i heq
    obtain ⟨rfl, rfl⟩ := List.cons.inj heq
    rw [if_pos (by simpa using hc)]

theorem readValue_of_startsNumber {c : Char} (hc : c = '-' ∨ c.isDigit) :
    readValue levels (c :: cs) = readScalar (c :: cs) := by
  have hgap : skipGap (c :: cs) = c :: cs := skipGap_cons (not_isGap_of_startsNumber hc)
  have hbracket : c ≠ '[' := ne_of_startsNumber hc (by decide)
  have hbrace : c ≠ '{' := ne_of_startsNumber hc (by decide)
  cases levels with
  | zero =>
    rw [readValue_zero, hgap]
    split <;> simp_all
  | succ levels =>
    rw [readValue_succ, hgap]
    split <;> simp_all

theorem rereads_number {n : Number} (hn : n.ReadsBack) : Rereads (.number n) := by
  refine rereads_of_readScalar rfl fun levels level rest hrest => ?_
  obtain ⟨c, cs, heq, hc⟩ := exists_cons_of_readNumber hn
  have hread : readNumber (c :: (cs ++ rest)) = .ok (n, rest) := by
    rw [← List.cons_append, ← heq]
    exact hn.readNumber_append hrest
  rw [pretty, heq, List.cons_append, readValue_of_startsNumber hc, readScalar_of_startsNumber hc,
    hread]
  rfl

/-! ## Arrays -/

theorem endsNumber_newLine : EndsNumber (newLine level ++ cs) :=
  endsNumber_cons (by decide)

theorem endsNumber_prettyItems (vs : List Json) (level outer : Nat) (rest : List Char) :
    EndsNumber (prettyItems level vs ++ (newLine outer ++ rest)) := by
  cases vs with
  | nil => exact endsNumber_newLine
  | cons v vs => exact endsNumber_cons (by decide)

theorem length_le_length_prettyItems (vs : List Json) (level : Nat) :
    vs.length ≤ (prettyItems level vs).length := by
  induction vs with
  | nil => simp
  | cons v vs ih =>
    simp only [prettyItems, List.cons_append, List.length_cons, List.length_append]
    omega

/-- Behind a comma stands an item. -/
theorem readMoreItems_comma {item : Step Json} {c : Char} (hgap : ¬ isGap c) (hc : c ≠ ']') :
    readMoreItems item (rounds + 1) (',' :: (newLine level ++ c :: cs)) = do
      let (v, rest) ← item (c :: cs)
      let (vs, rest) ← readMoreItems item rounds rest
      return (v :: vs, rest) := by
  have hskip : skipGap (newLine level ++ c :: cs) = c :: cs := by
    rw [skipGap_newLine, skipGap_cons hgap]
  have hcomma : skipGap (',' :: (newLine level ++ c :: cs)) =
      ',' :: (newLine level ++ c :: cs) := rfl
  rw [readMoreItems, hcomma]
  split
  · contradiction
  · simp_all
  · rename_i heq
    obtain ⟨-, rfl⟩ := List.cons.inj heq
    rw [hskip]
    split <;> simp_all
  · rename_i hother
    exact absurd rfl (hother _)

/-- The items after the first and the closing bracket are read back. -/
theorem gives_readMoreItems (levels level outer : Nat) (rest : List Char) {vs : List Json}
    (hvs : ∀ v ∈ vs, Rereads v)
    (hnumbers : ∀ v ∈ vs, v.NumbersReadBack) (hrounds : vs.length < rounds) :
    Gives (∀ v ∈ vs, v.depth ≤ levels) vs rest (readMoreItems (readValue levels) rounds
      (prettyItems level vs ++ (newLine outer ++ ']' :: rest))) := by
  induction vs generalizing rounds with
  | nil =>
    obtain ⟨rounds, rfl⟩ : ∃ n, rounds = n + 1 := Nat.exists_eq_add_one.mpr hrounds
    refine (Gives.of_eq ?_).congr (by simp)
    rw [prettyItems, List.nil_append, readMoreItems, skipGap_newLine]
    rfl
  | cons v vs ih =>
    obtain ⟨rounds, rfl⟩ : ∃ n, rounds = n + 1 :=
      Nat.exists_eq_add_one.mpr (Nat.zero_lt_of_lt hrounds)
    rw [List.forall_mem_cons] at hvs hnumbers
    obtain ⟨c, cs, heq, hgap, hclose, -⟩ := exists_head_pretty level hnumbers.1
    have hhead := hvs.1 levels level _
      (endsNumber_prettyItems vs level outer (']' :: rest))
    have htail := ih hvs.2 hnumbers.2 (Nat.lt_of_succ_lt_succ hrounds)
    -- the loop looks at the first character of the item before it reads the item
    rw [heq, List.cons_append] at hhead
    rw [prettyItems, heq, List.append_assoc, List.append_assoc, List.cons_append, List.cons_append,
      readMoreItems_comma hgap hclose]
    exact (hhead.bind (htail.map (v :: ·))).congr List.forall_mem_cons

/-- All items of an array and the closing bracket are read back. -/
theorem gives_readItems (levels level outer : Nat) (rest : List Char) {v : Json} {vs : List Json}
    (hvs : ∀ w ∈ v :: vs, Rereads w)
    (hnumbers : ∀ w ∈ v :: vs, w.NumbersReadBack) :
    Gives (∀ w ∈ v :: vs, w.depth ≤ levels) (v :: vs) rest (readItems (readValue levels)
      (newLine level ++ (pretty level v ++ (prettyItems level vs ++
        (newLine outer ++ ']' :: rest))))) := by
  rw [List.forall_mem_cons] at hvs hnumbers
  obtain ⟨c, cs, heq, hgap, hclose, -⟩ := exists_head_pretty level hnumbers.1
  have hhead := hvs.1 levels level _
    (endsNumber_prettyItems vs level outer (']' :: rest))
  have hrounds : vs.length <
      (prettyItems level vs ++ (newLine outer ++ ']' :: rest)).length + 1 := by
    have hlength := length_le_length_prettyItems vs level
    simp only [List.length_append]
    omega
  have htail := gives_readMoreItems levels level outer rest hvs.2 hnumbers.2 hrounds
  have hskip : skipGap (newLine level ++ (pretty level v ++ (prettyItems level vs ++
      (newLine outer ++ ']' :: rest)))) =
      c :: (cs ++ (prettyItems level vs ++ (newLine outer ++ ']' :: rest))) := by
    rw [skipGap_newLine, heq, List.cons_append, skipGap_cons hgap]
  rw [heq, List.cons_append] at hhead
  unfold readItems
  rw [hskip]
  split
  · contradiction
  · simp_all
  · exact (hhead.bind (htail.map (v :: ·))).congr List.forall_mem_cons

theorem rereads_array {items : List Json} (hitems : ∀ v ∈ items, Rereads v)
    (hnumbers : ∀ v ∈ items, v.NumbersReadBack) : Rereads (.array items) := by
  intro levels level rest hrest
  cases levels with
  | zero =>
    -- no bracket may be open any more, not even that of an empty array
    refine ⟨fun h => absurd h (by simp [depth]), fun _ => ?_⟩
    cases items <;> exact ⟨_, rfl⟩
  | succ levels =>
    refine Gives.congr ?_ (by rw [depth, Nat.add_le_add_iff_right, depthOfItems_le_iff])
    cases items with
    | nil => exact (Gives.of_eq rfl).congr (by simp)
    | cons v vs =>
      have hread := gives_readItems levels (level + 1) level rest hitems hnumbers
      simp only [pretty, List.cons_append, List.append_assoc, List.nil_append]
      exact hread.map Json.array

/-! ## Objects -/

theorem endsNumber_prettyMembers (ms : Members) (level outer : Nat) (rest : List Char) :
    EndsNumber (prettyMembers level ms ++ (newLine outer ++ rest)) := by
  cases ms with
  | nil => exact endsNumber_newLine
  | cons m ms => exact endsNumber_cons (by decide)

theorem length_le_length_prettyMembers (ms : Members) (level : Nat) :
    ms.length ≤ (prettyMembers level ms).length := by
  induction ms with
  | nil => simp
  | cons m ms ih =>
    simp only [prettyMembers, List.cons_append, List.length_cons, List.length_append]
    omega

theorem readMember_quoted {item : Step Json} {key : String} :
    readMember item (quoted key ++ ':' :: cs) = do
      let (v, rest) ← item cs
      return ((key, v), rest) := by
  simp only [quoted, List.cons_append, List.append_assoc, List.nil_append]
  rw [readMember, readString_flatMap_escaped]
  rfl

theorem gives_readMember (levels level : Nat) {v : Json} (key : String) (hv : Rereads v)
    (hrest : EndsNumber rest) :
    Gives (v.depth ≤ levels) (key, v) rest (readMember (readValue levels)
      (quoted key ++ ':' :: ' ' :: (pretty level v ++ rest))) := by
  have hblank : readValue levels (' ' :: (pretty level v ++ rest)) =
      readValue levels (pretty level v ++ rest) := readValue_congr rfl
  rw [readMember_quoted, hblank]
  exact (hv levels level rest hrest).map (key, ·)

theorem skipGap_quoted {key : String} : skipGap (quoted key ++ cs) = quoted key ++ cs := rfl

theorem readMoreMembers_comma {item : Step Json} {key : String} :
    readMoreMembers item (rounds + 1) (',' :: (newLine level ++ (quoted key ++ cs))) = do
      let (m, rest) ← readMember item (quoted key ++ cs)
      let (ms, rest) ← readMoreMembers item rounds rest
      return (m :: ms, rest) := by
  have hskip : skipGap (newLine level ++ (quoted key ++ cs)) = quoted key ++ cs := by
    rw [skipGap_newLine, skipGap_quoted]
  have hcomma : skipGap (',' :: (newLine level ++ (quoted key ++ cs))) =
      ',' :: (newLine level ++ (quoted key ++ cs)) := rfl
  rw [readMoreMembers, hcomma]
  split
  · contradiction
  · simp_all
  · rename_i heq
    obtain ⟨-, rfl⟩ := List.cons.inj heq
    rw [hskip]
    rfl
  · rename_i hother
    exact absurd rfl (hother _)

/-- The members after the first and the closing brace are read back. -/
theorem gives_readMoreMembers (levels level outer : Nat) (rest : List Char) {ms : Members}
    (hms : ∀ m ∈ ms, Rereads m.2)
    (hrounds : ms.length < rounds) :
    Gives (∀ m ∈ ms, m.2.depth ≤ levels) ms rest (readMoreMembers (readValue levels) rounds
      (prettyMembers level ms ++ (newLine outer ++ '}' :: rest))) := by
  induction ms generalizing rounds with
  | nil =>
    obtain ⟨rounds, rfl⟩ : ∃ n, rounds = n + 1 := Nat.exists_eq_add_one.mpr hrounds
    refine (Gives.of_eq ?_).congr (by simp)
    rw [prettyMembers, List.nil_append, readMoreMembers, skipGap_newLine]
    rfl
  | cons m ms ih =>
    obtain ⟨rounds, rfl⟩ : ∃ n, rounds = n + 1 :=
      Nat.exists_eq_add_one.mpr (Nat.zero_lt_of_lt hrounds)
    rw [List.forall_mem_cons] at hms
    have hhead := gives_readMember levels level m.1 hms.1
      (endsNumber_prettyMembers ms level outer ('}' :: rest))
    have htail := ih hms.2 (Nat.lt_of_succ_lt_succ hrounds)
    simp only [prettyMembers, List.cons_append, List.append_assoc]
    rw [readMoreMembers_comma]
    exact (hhead.bind (htail.map (m :: ·))).congr List.forall_mem_cons

/-- All members of an object and the closing brace are read back. -/
theorem gives_readMembers (levels level outer : Nat) (rest : List Char) {m : String × Json}
    {ms : Members} (hms : ∀ n ∈ m :: ms, Rereads n.2)
    (hkeys : (Members.keys (m :: ms)).Nodup) :
    Gives (∀ n ∈ m :: ms, n.2.depth ≤ levels) (m :: ms) rest (readMembers (readValue levels)
      (newLine level ++ (quoted m.1 ++ ':' :: ' ' :: (pretty level m.2 ++ (prettyMembers level ms ++
        (newLine outer ++ '}' :: rest)))))) := by
  rw [List.forall_mem_cons] at hms
  have hhead := gives_readMember levels level m.1 hms.1
    (endsNumber_prettyMembers ms level outer ('}' :: rest))
  have hrounds : ms.length <
      (prettyMembers level ms ++ (newLine outer ++ '}' :: rest)).length + 1 := by
    have hlength := length_le_length_prettyMembers ms level
    simp only [List.length_append]
    omega
  have htail := gives_readMoreMembers levels level outer rest hms.2 hrounds
  have hstored : Members.insertAll [] (m :: ms) = m :: ms := Members.insertAll_of_nodup hkeys
  have hread := htail.map fun ms => Members.insertAll [] (m :: ms)
  rw [hstored] at hread
  unfold readMembers
  rw [skipGap_newLine, skipGap_quoted]
  exact (hhead.bind hread).congr List.forall_mem_cons

theorem rereads_object {members : Members} (hmembers : ∀ m ∈ members, Rereads m.2)
    (hkeys : (Members.keys members).Nodup) : Rereads (.object members) := by
  intro levels level rest hrest
  cases levels with
  | zero =>
    refine ⟨fun h => absurd h (by simp [depth]), fun _ => ?_⟩
    cases members <;> exact ⟨_, rfl⟩
  | succ levels =>
    refine Gives.congr ?_ (by rw [depth, Nat.add_le_add_iff_right, depthOfMembers_le_iff])
    cases members with
    | nil => exact (Gives.of_eq rfl).congr (by simp)
    | cons m ms =>
      have hread := gives_readMembers levels (level + 1) level rest hmembers hkeys
      simp only [pretty, List.cons_append, List.append_assoc, List.nil_append]
      exact hread.map Json.object

/-! ## Whole values -/

/-- **Every value with distinct keys is read back from its text**, as far as the depth
allows: by induction over the value, with the loops of the reader in the two steps. -/
theorem rereads (v : Json) (hkeys : v.HasDistinctKeys) (hnumbers : v.NumbersReadBack) :
    Rereads v := by
  induction v using induction with
  | null => exact rereads_null
  | bool b => exact rereads_bool
  | number n => exact rereads_number (numbersReadBack_number.mp hnumbers)
  | string s => exact rereads_string
  | array items ih =>
    have hinner := fun v hv => hnumbers.of_mem_items (v := v) hv
    exact rereads_array
      (fun v hv => ih v hv (hasDistinctKeys_array.mp hkeys v hv) (hinner v hv)) hinner
  | object members ih =>
    obtain ⟨hnodup, hinner⟩ := hasDistinctKeys_object.mp hkeys
    exact rereads_object
      (fun m hm => ih m hm (hinner m hm) (hnumbers.of_mem_members hm)) hnodup

variable {v : Json}

theorem endsNumber_of_isGap {cs : List Char} (h : ∀ c ∈ cs, isGap c) : EndsNumber cs := by
  cases cs with
  | nil => exact endsNumber_nil
  | cons c cs =>
    refine endsNumber_cons ?_
    have hc := h c (by simp)
    simp only [isGap, Bool.or_eq_true, decide_eq_true_eq] at hc
    rcases hc with ((rfl | rfl) | rfl) | rfl <;> decide

section Blank

variable {blank : String} (hblank : ∀ c ∈ blank.toList, isGap c)

include hblank

/-- The text of a value is read wherever gaps follow it. -/
theorem gives_readValue_toPrettyText (hkeys : v.HasDistinctKeys) (hnumbers : v.NumbersReadBack) :
    Gives (v.depth ≤ maxDepth) v blank.toList
      (readValue maxDepth (v.toPrettyText ++ blank).toList) := by
  rw [String.toList_append, toPrettyText, String.toList_ofList]
  exact rereads v hkeys hnumbers _ _ _ (endsNumber_of_isGap hblank)

/-- The text of a value that nests at most as deep as the reader allows is read back, with or
without a line feed behind it. -/
theorem read_toPrettyText_append (hkeys : v.HasDistinctKeys) (hnumbers : v.NumbersReadBack)
    (hdepth : v.depth ≤ maxDepth) : read (v.toPrettyText ++ blank) = .ok v := by
  have hgap : skipGap blank.toList = [] := List.dropWhile_eq_nil_iff.mpr hblank
  unfold read readWhole
  rw [(gives_readValue_toPrettyText hblank hkeys hnumbers).ok hdepth]
  simp [hgap]

/-- The text of a value that nests deeper is rejected for its depth. -/
theorem read_toPrettyText_append_of_lt (hkeys : v.HasDistinctKeys) (hnumbers : v.NumbersReadBack)
    (hdepth : maxDepth < v.depth) :
    ∃ failure, read (v.toPrettyText ++ blank) = .error failure ∧ failure.fault = .tooDeep := by
  obtain ⟨left, hleft⟩ :=
    (gives_readValue_toPrettyText hblank hkeys hnumbers).tooDeep (Nat.not_le.mpr hdepth)
  unfold read readWhole
  rw [hleft]
  exact ⟨_, rfl, rfl⟩

end Blank

end IdlCompiler.Json
