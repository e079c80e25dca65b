/-
# What patterns match

What is left behind the parts of a pattern is said without lists of texts: a text is left behind a
part if the part stands for what is in front of it.  For patterns that begin with any directories
and any run and go on with characters, this comes down to how a path ends, whatever its directories
are.  Patterns are matched against bytes and paths are made of characters, so the ends are compared
as bytes first; the bytes of a character of ASCII are in no other character.

Main statements: `mem_rests_iff`, parts are left one after the other; `suffix_flatMap_bytesOf_iff`,
ends as bytes and as characters; and `isMatch_endingPattern_iff`.
-/
import IdlCompiler.Glob.Basic
import Mathlib.Data.List.Induction

namespace IdlCompiler.Glob

variable {text rest : List UInt8} {cs ending : List Char}

/-! ## The bytes of texts -/

theorem toList_loop_eq (bytes : ByteArray) (i : Nat) (before : List UInt8) :
    ByteArray.toList.loop bytes i before = before.reverse ++ bytes.data.toList.drop i := by
  fun_induction ByteArray.toList.loop bytes i before with
  | case1 i before h ih =>
    have hi : i < bytes.data.toList.length := by simpa using h
    have hget : bytes.get! i = bytes.data.toList[i] := by
      show bytes.data[i]! = _
      rw [getElem!_pos bytes.data i (by simpa using hi), Array.getElem_toList]
    rw [ih, List.drop_eq_getElem_cons hi, hget]
    simp
  | case2 i before h =>
    have hi : bytes.data.toList.length ≤ i := by simpa using h
    rw [List.drop_eq_nil_of_le hi, List.append_nil]

theorem toList_toByteArray (bytes : List UInt8) : bytes.toByteArray.toList = bytes := by
  rw [ByteArray.toList, toList_loop_eq]
  simp

theorem bytesOf_eq (c : Char) : bytesOf c = String.utf8EncodeChar c := by
  rw [bytesOf, String.toUTF8, String.toByteArray_singleton, List.utf8Encode_singleton,
    toList_toByteArray]

/-- The bytes of a text are those of its characters. -/
theorem toList_toUTF8 (s : String) : s.toUTF8.toList = s.toList.flatMap bytesOf := by
  rw [String.toUTF8, ← String.utf8Encode_toList, List.utf8Encode, toList_toByteArray]
  rw [funext bytesOf_eq]

theorem bytesOf_of_lt {c : Char} (h : c.toNat < 128) : bytesOf c = [UInt8.ofNat c.toNat] := by
  rw [bytesOf_eq, String.utf8EncodeChar]
  exact if_pos (Nat.le_of_lt_succ h)

/-- The last byte of a character that is none of ASCII is no character of ASCII. -/
theorem exists_bytesOf_of_le {c : Char} (h : 128 ≤ c.toNat) :
    ∃ front last, bytesOf c = front ++ [last] ∧ 128 ≤ last.toNat := by
  have hlast : 128 ≤ (UInt8.ofNat (c.toNat % 64 + 128)).toNat := by
    rw [UInt8.toNat_ofNat_of_lt' (by simp only [UInt8.size]; omega)]
    omega
  rw [bytesOf_eq, String.utf8EncodeChar]
  change ∃ front last, (if c.toNat ≤ 127 then _ else _) = front ++ [last] ∧ _
  rw [if_neg (by omega)]
  split
  · exact ⟨[_], _, rfl, hlast⟩
  split
  · exact ⟨[_, _], _, rfl, hlast⟩
  · exact ⟨[_, _, _], _, rfl, hlast⟩

/-- A text whose bytes end with a character of ASCII ends with it. -/
theorem exists_of_flatMap_bytesOf_concat {c : Char} (hc : c.toNat < 128)
    (h : cs.flatMap bytesOf = text ++ bytesOf c) :
    ∃ front, cs = front ++ [c] ∧ front.flatMap bytesOf = text := by
  have hbyte : (UInt8.ofNat c.toNat).toNat = c.toNat :=
    UInt8.toNat_ofNat_of_lt' (by simp only [UInt8.size]; omega)
  rw [bytesOf_of_lt hc] at h
  rcases List.eq_nil_or_concat cs with rfl | ⟨front, d, rfl⟩
  · simp at h
  rw [List.concat_eq_append] at h ⊢
  simp only [List.flatMap_append, List.flatMap_cons, List.flatMap_nil, List.append_nil] at h
  rcases Nat.lt_or_ge d.toNat 128 with hd | hd
  · rw [bytesOf_of_lt hd] at h
    obtain ⟨hfront, hlast⟩ := List.append_inj' h rfl
    have hnat := congrArg UInt8.toNat (List.singleton_inj.1 hlast)
    rw [hbyte, UInt8.toNat_ofNat_of_lt' (by simp only [UInt8.size]; omega)] at hnat
    obtain rfl : d = c := Char.toNat_inj.1 hnat
    exact ⟨front, rfl, hfront⟩
  · obtain ⟨bytes, last, hbytes, hlast⟩ := exists_bytesOf_of_le hd
    rw [hbytes, ← List.append_assoc] at h
    obtain rfl := List.singleton_inj.1 (List.append_inj' h rfl).2
    omega

/-- Texts end with characters of ASCII where their bytes end with the bytes of these. -/
theorem suffix_flatMap_bytesOf_iff (hending : ∀ c ∈ ending, c.toNat < 128) :
    ending.flatMap bytesOf <:+ cs.flatMap bytesOf ↔ ending <:+ cs := by
  constructor
  · intro h
    induction ending using List.reverseRecOn generalizing cs with
    | nil => exact List.nil_suffix
    | append_singleton ending c ih =>
      obtain ⟨hending, hc⟩ := List.forall_mem_append.1 hending
      obtain ⟨text, htext⟩ := h
      simp only [List.flatMap_append, List.flatMap_cons, List.flatMap_nil, List.append_nil,
        ← List.append_assoc] at htext
      obtain ⟨front, rfl, hfront⟩ :=
        exists_of_flatMap_bytesOf_concat (hc c (by simp)) htext.symm
      obtain ⟨before, rfl⟩ := ih hending ⟨text, hfront.symm⟩
      exact ⟨before, by simp⟩
  · rintro ⟨front, rfl⟩
    rw [List.flatMap_append]
    exact List.suffix_append ..

/-! ## What is left behind parts -/

theorem mem_restsWhile {p : UInt8 → Bool} :
    rest ∈ restsWhile p text ↔ ∃ run, text = run ++ rest ∧ ∀ b ∈ run, p b := by
  induction text with
  | nil =>
    simp only [restsWhile, List.mem_singleton, List.nil_eq_append_iff]
    exact ⟨fun h => ⟨[], ⟨rfl, h⟩, by simp⟩, fun ⟨_, ⟨_, h⟩, _⟩ => h⟩
  | cons b text ih =>
    have hself : (∃ run, b :: text = run ++ rest ∧ ∀ c ∈ run, p c) ↔
        rest = b :: text ∨ p b ∧ ∃ run, text = run ++ rest ∧ ∀ c ∈ run, p c := by
      constructor
      · rintro ⟨run, hrun, hall⟩
        cases run with
        | nil => exact .inl hrun.symm
        | cons c run =>
          obtain ⟨rfl, rfl⟩ := List.cons.inj hrun
          obtain ⟨hb, hall⟩ := List.forall_mem_cons.1 hall
          exact .inr ⟨hb, run, rfl, hall⟩
      · rintro (rfl | ⟨hb, run, rfl, hall⟩)
        · exact ⟨[], rfl, by simp⟩
        · exact ⟨b :: run, rfl, List.forall_mem_cons.2 ⟨hb, hall⟩⟩
    rw [hself, restsWhile]
    by_cases hb : p b <;> simp [hb, ih]

theorem mem_restsAfterSlash :
    rest ∈ restsAfterSlash text ↔ ∃ before, text = before ++ slash :: rest := by
  induction text with
  | nil => simp [restsAfterSlash]
  | cons b text ih =>
    have hself : (∃ before, b :: text = before ++ slash :: rest) ↔
        (b = slash ∧ rest = text) ∨ ∃ before, text = before ++ slash :: rest := by
      constructor
      · rintro ⟨before, hbefore⟩
        cases before with
        | nil =>
          obtain ⟨rfl, rfl⟩ := List.cons.inj hbefore
          exact .inl ⟨rfl, rfl⟩
        | cons c before => exact .inr ⟨before, (List.cons.inj hbefore).2⟩
      · rintro (⟨rfl, rfl⟩ | ⟨before, rfl⟩)
        · exact ⟨[], rfl⟩
        · exact ⟨b :: before, rfl⟩
    rw [hself, restsAfterSlash]
    by_cases hb : b = slash <;> simp [hb, ih]

theorem restAfter?_eq_some_iff {bytes : List UInt8} :
    restAfter? bytes text = some rest ↔ text = bytes ++ rest := by
  induction bytes generalizing text with
  | nil => simp [restAfter?]
  | cons b bytes ih =>
    cases text with
    | nil => simp [restAfter?]
    | cons c text =>
      rw [restAfter?, List.cons_append, List.cons.injEq]
      by_cases h : b = c <;> simp [h, ih, Ne.symm]

/-- What is left behind parts is left behind the parts but the first, once the first has left
something. -/
theorem mem_rests_iff {texts : List (List UInt8)} {parts : List Part} :
    rest ∈ rests texts parts ↔ ∃ text ∈ texts, rest ∈ rests [text] parts := by
  induction parts generalizing texts with
  | nil => simp [rests]
  | cons part parts ih =>
    simp only [rests, @ih (List.eraseDups _), List.mem_eraseDups, List.mem_flatMap,
      List.mem_singleton]
    grind

theorem mem_rests_cons {part : Part} {parts : List Part} :
    rest ∈ rests [text] (part :: parts) ↔ ∃ left ∈ part.rests text, rest ∈ rests [left] parts := by
  rw [rests, mem_rests_iff]
  simp [List.mem_eraseDups]

theorem mem_rests_literals :
    rest ∈ rests [text] (cs.map .literal) ↔ text = cs.flatMap bytesOf ++ rest := by
  induction cs generalizing text with
  | nil => simp [rests, eq_comm]
  | cons c cs ih =>
    rw [List.map_cons, mem_rests_cons]
    simp [Part.rests, restAfter?_eq_some_iff, ih]

/-! ## Patterns for endings -/

/-- The pattern for the paths whose last name ends with given characters, in any directory. -/
def endingPattern (ending : List Char) : Pattern :=
  [.leadingDirectories, .anyRun] ++ ending.map .literal

/-- What is in front of an ending is directories and a run. -/
theorem exists_directories_run (bytes : List UInt8) : ∃ before run,
    bytes = before ++ run ∧ (before = [] ∨ ∃ start, before = start ++ [slash]) ∧
      ∀ b ∈ run, b ≠ slash := by
  induction bytes using List.reverseRecOn with
  | nil => exact ⟨[], [], rfl, .inl rfl, by simp⟩
  | append_singleton bytes b ih =>
    by_cases hb : b = slash
    · exact ⟨bytes ++ [b], [], by simp, .inr ⟨bytes, by rw [hb]⟩, by simp⟩
    · obtain ⟨before, run, rfl, hbefore, hrun⟩ := ih
      refine ⟨before, run ++ [b], List.append_assoc .., hbefore, ?_⟩
      exact List.forall_mem_append.2 ⟨hrun, by simpa using hb⟩

/-- **A pattern for an ending matches exactly the paths that end so**, hidden files among them. -/
theorem isMatch_endingPattern_iff (hending : ∀ c ∈ ending, c.toNat < 128) {path : String} :
    (endingPattern ending).isMatch path ↔ ending <:+ path.toList := by
  rw [← suffix_flatMap_bytesOf_iff hending, Pattern.isMatch, toList_toUTF8]
  generalize path.toList.flatMap bytesOf = text
  have hmatch : (endingPattern ending).matchesBytes text =
      (rests [text] (.leadingDirectories :: .anyRun :: ending.map .literal)).contains [] := rfl
  rw [hmatch, List.contains_iff_mem, mem_rests_cons]
  simp only [mem_rests_cons, mem_rests_literals, List.append_nil]
  constructor
  · rintro ⟨inside, hinside, name, hname, rfl⟩
    obtain ⟨run, rfl, -⟩ := mem_restsWhile.1 hname
    have hsuffix : run ++ ending.flatMap bytesOf <:+ text := by
      rcases List.mem_cons.1 hinside with rfl | hinside
      · exact List.suffix_rfl
      · obtain ⟨before, rfl⟩ := mem_restsAfterSlash.1 hinside
        exact ⟨before ++ [slash], by simp⟩
    exact (List.suffix_append ..).trans hsuffix
  · rintro ⟨front, rfl⟩
    obtain ⟨before, run, rfl, hbefore, hrun⟩ := exists_directories_run front
    refine ⟨run ++ ending.flatMap bytesOf, ?_, ending.flatMap bytesOf, ?_, rfl⟩
    · rcases hbefore with rfl | ⟨start, rfl⟩
      · simp [Part.rests]
      · exact List.mem_cons_of_mem _ (mem_restsAfterSlash.2 ⟨start, by simp⟩)
    · exact mem_restsWhile.2 ⟨run, rfl, by simpa using hrun⟩

end IdlCompiler.Glob
