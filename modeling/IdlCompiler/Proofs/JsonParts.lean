/-
# The parts of a JSON value

What holds of a value at every depth is said of its parts, `Json.parts`: the value itself,
the parts of its items and those of its members.  Two such conditions matter for the texts
of values.  Keys are distinct at every depth, `Json.HasDistinctKeys`, which is what a
reader can give back at all; and every number reads back, `Json.NumbersReadBack`.  What a
reader gives has distinct keys, `Json.hasDistinctKeys_of_read`.

The depth of a value, `Json.depth`, tells how many brackets its text opens inside one
another.  What a reader gives is no deeper than the reader allows, `Json.depth_le_of_read`.
-/
import IdlCompiler.Proofs.Numbers
import IdlCompiler.Proofs.Results
import Mathlib.Data.List.Nodup

namespace IdlCompiler.Json

/-! ## Induction and parts -/

/-- Induction over a value, whose steps are given the claim for all items and for the values
of all members. -/
@[elab_as_elim]
theorem induction {motive : Json → Prop} (null : motive .null)
    (bool : ∀ b, motive (.bool b)) (number : ∀ n, motive (.number n))
    (string : ∀ s, motive (.string s))
    (array : ∀ items, (∀ v ∈ items, motive v) → motive (.array items))
    (object : ∀ members, (∀ m ∈ members, motive m.2) → motive (.object members))
    (v : Json) : motive v :=
  @Json.rec motive (fun vs => ∀ v ∈ vs, motive v) (fun ms => ∀ m ∈ ms, motive m.2)
    (fun m => motive m.2) null bool number string array object
    (by simp) (fun v vs hv hvs => by simpa using ⟨hv, hvs⟩)
    (by simp) (fun m ms hm hms => by simpa using ⟨hm, fun a b => hms (a, b)⟩)
    (fun _ _ hv => hv) v

mutual

/-- A value and the parts of what it holds. -/
def parts : Json → List Json
  | array items => .array items :: partsOfItems items
  | object members => .object members :: partsOfMembers members
  | v => [v]
termination_by structural v => v

/-- The parts of the items of an array. -/
def partsOfItems : List Json → List Json
  | [] => []
  | v :: vs => parts v ++ partsOfItems vs
termination_by structural vs => vs

/-- The parts of the values of members. -/
def partsOfMembers : List (String × Json) → List Json
  | [] => []
  | (_, v) :: ms => parts v ++ partsOfMembers ms
termination_by structural ms => ms

end

mutual

/-- How many brackets are open at once in the text of a value, where most are. -/
def depth : Json → Nat
  | array items => depthOfItems items + 1
  | object members => depthOfMembers members + 1
  | _ => 0
termination_by structural v => v

/-- The depth of the deepest item. -/
def depthOfItems : List Json → Nat
  | [] => 0
  | v :: vs => max (depth v) (depthOfItems vs)
termination_by structural vs => vs

/-- The depth of the deepest value of a member. -/
def depthOfMembers : List (String × Json) → Nat
  | [] => 0
  | (_, v) :: ms => max (depth v) (depthOfMembers ms)
termination_by structural ms => ms

end

variable {v w : Json} {items : List Json} {members : Members} {n : Nat}

@[simp] theorem mem_partsOfItems : w ∈ partsOfItems items ↔ ∃ v ∈ items, w ∈ v.parts := by
  induction items with
  | nil => simp [partsOfItems]
  | cons v vs ih => simp [partsOfItems, ih]

@[simp] theorem mem_partsOfMembers :
    w ∈ partsOfMembers members ↔ ∃ m ∈ members, w ∈ m.2.parts := by
  induction members with
  | nil => simp [partsOfMembers]
  | cons m ms ih => simp [partsOfMembers, ih]

@[simp] theorem depthOfItems_le_iff : depthOfItems items ≤ n ↔ ∀ v ∈ items, v.depth ≤ n := by
  induction items with
  | nil => simp [depthOfItems]
  | cons v vs ih => rw [depthOfItems, Nat.max_le, ih, List.forall_mem_cons]

@[simp] theorem depthOfMembers_le_iff :
    depthOfMembers members ≤ n ↔ ∀ m ∈ members, m.2.depth ≤ n := by
  induction members with
  | nil => simp [depthOfMembers]
  | cons m ms ih => rw [depthOfMembers, Nat.max_le, ih, List.forall_mem_cons]

/-- A value without brackets is its only part. -/
theorem parts_of_depth_eq_zero (h : v.depth = 0) : v.parts = [v] := by
  cases v with
  | null | bool | number | string => rfl
  | array items => exact absurd h (Nat.succ_ne_zero _)
  | object members => exact absurd h (Nat.succ_ne_zero _)

@[simp] theorem mem_parts_array :
    w ∈ (array items).parts ↔ w = array items ∨ ∃ v ∈ items, w ∈ v.parts :=
  List.mem_cons.trans (or_congr_right mem_partsOfItems)

@[simp] theorem mem_parts_object :
    w ∈ (object members).parts ↔ w = object members ∨ ∃ m ∈ members, w ∈ m.2.parts :=
  List.mem_cons.trans (or_congr_right mem_partsOfMembers)

theorem self_mem_parts (v : Json) : v ∈ v.parts := by
  cases v with
  | null | bool | number | string => exact List.mem_singleton_self _
  | array items => exact mem_parts_array.mpr (.inl rfl)
  | object members => exact mem_parts_object.mpr (.inl rfl)

theorem mem_parts_of_mem_items (hv : v ∈ items) : v ∈ (array items).parts :=
  mem_parts_array.mpr (.inr ⟨v, hv, v.self_mem_parts⟩)

theorem mem_parts_of_mem_members {m : String × Json} (hm : m ∈ members) :
    m.2 ∈ (object members).parts :=
  mem_parts_object.mpr (.inr ⟨m, hm, m.2.self_mem_parts⟩)

/-- The parts of a part are parts. -/
theorem parts_subset_of_mem (hw : w ∈ v.parts) : w.parts ⊆ v.parts := by
  induction v using induction with
  | null | bool | number | string =>
    obtain rfl := List.mem_singleton.mp hw
    exact fun _ h => h
  | array items ih =>
    obtain rfl | ⟨v, hv, hw⟩ := mem_parts_array.mp hw
    · exact fun _ h => h
    · exact fun u hu => mem_parts_array.mpr (.inr ⟨v, hv, ih v hv hw hu⟩)
  | object members ih =>
    obtain rfl | ⟨m, hm, hw⟩ := mem_parts_object.mp hw
    · exact fun _ h => h
    · exact fun u hu => mem_parts_object.mpr (.inr ⟨m, hm, ih m hm hw hu⟩)

/-! ## Conditions on all parts -/

/-- The keys of every object inside a value are distinct. -/
def HasDistinctKeys (v : Json) : Prop := ∀ ms, .object ms ∈ v.parts → (Members.keys ms).Nodup

/-- Every number inside a value reads back. -/
def NumbersReadBack (v : Json) : Prop := ∀ n, .number n ∈ v.parts → n.ReadsBack

theorem hasDistinctKeys_of_depth_eq_zero (h : v.depth = 0) : v.HasDistinctKeys := by
  intro ms hms
  rw [parts_of_depth_eq_zero h, List.mem_singleton] at hms
  subst hms
  exact absurd h (Nat.succ_ne_zero _)

@[simp] theorem hasDistinctKeys_null : HasDistinctKeys .null :=
  hasDistinctKeys_of_depth_eq_zero rfl

@[simp] theorem hasDistinctKeys_bool {b : Bool} : HasDistinctKeys (.bool b) :=
  hasDistinctKeys_of_depth_eq_zero rfl

@[simp] theorem hasDistinctKeys_number {n : Number} : HasDistinctKeys (.number n) :=
  hasDistinctKeys_of_depth_eq_zero rfl

@[simp] theorem hasDistinctKeys_string {s : String} : HasDistinctKeys (.string s) :=
  hasDistinctKeys_of_depth_eq_zero rfl

@[simp] theorem hasDistinctKeys_array :
    HasDistinctKeys (.array items) ↔ ∀ v ∈ items, v.HasDistinctKeys := by
  simp only [HasDistinctKeys, mem_parts_array, reduceCtorEq, false_or]
  exact ⟨fun h v hv ms hms => h ms ⟨v, hv, hms⟩, fun h ms ⟨v, hv, hms⟩ => h v hv ms hms⟩

@[simp] theorem hasDistinctKeys_object : HasDistinctKeys (.object members) ↔
    (Members.keys members).Nodup ∧ ∀ m ∈ members, m.2.HasDistinctKeys := by
  simp only [HasDistinctKeys, mem_parts_object, object.injEq]
  constructor
  · intro h
    exact ⟨h members (.inl rfl), fun m hm ms hms => h ms (.inr ⟨m, hm, hms⟩)⟩
  · rintro ⟨hkeys, h⟩ ms (rfl | ⟨m, hm, hms⟩)
    · exact hkeys
    · exact h m hm ms hms

theorem numbersReadBack_number {n : Number} : NumbersReadBack (.number n) ↔ n.ReadsBack := by
  rw [NumbersReadBack, parts_of_depth_eq_zero (v := .number n) rfl]
  simp

theorem NumbersReadBack.of_mem_items (h : NumbersReadBack (.array items)) (hv : v ∈ items) :
    v.NumbersReadBack :=
  fun n hn => h n (mem_parts_array.mpr (.inr ⟨v, hv, hn⟩))

theorem NumbersReadBack.of_mem_members {m : String × Json}
    (h : NumbersReadBack (.object members)) (hm : m ∈ members) : m.2.NumbersReadBack :=
  fun n hn => h n (mem_parts_object.mpr (.inr ⟨m, hm, hn⟩))

/-- Tells whether a value is a number. -/
def isNumber : Json → Bool
  | number _ => true
  | _ => false

theorem numbersReadBack_of_all (h : v.parts.all fun w => !w.isNumber) : v.NumbersReadBack := by
  intro n hn
  have hnot := List.all_eq_true.mp h _ hn
  cases hnot

/-! ## Storing members one after the other -/

namespace Members

variable {extra : Members} {key : String} {m : String × Json}

theorem mem_insert (h : m ∈ insert members key v) : m = (key, v) ∨ m ∈ members := by
  induction members with
  | nil => simpa [insert] using h
  | cons entry rest ih =>
    obtain ⟨k, w⟩ := entry
    by_cases hk : k = key
    · subst hk
      rw [insert, if_pos rfl] at h
      rcases List.mem_cons.mp h with h | h
      · exact .inl h
      · exact .inr (List.mem_cons_of_mem _ h)
    · rw [insert, if_neg hk] at h
      rcases List.mem_cons.mp h with h | h
      · exact .inr (h ▸ List.mem_cons_self)
      · exact (ih h).imp id (List.mem_cons_of_mem _)

theorem mem_insertAll (h : m ∈ insertAll members extra) : m ∈ members ∨ m ∈ extra := by
  induction extra generalizing members with
  | nil => exact .inl h
  | cons entry extra ih =>
    have hrest : m ∈ insertAll (insert members entry.1 entry.2) extra := h
    rcases ih hrest with h | h
    · rcases mem_insert h with h | h
      · exact .inr (h ▸ List.mem_cons_self)
      · exact .inl h
    · exact .inr (List.mem_cons_of_mem _ h)

theorem nodup_keys_insert (h : (keys members).Nodup) : (keys (insert members key v)).Nodup := by
  by_cases hmem : key ∈ keys members
  · rwa [keys_insert_of_mem members v hmem]
  · rw [insert_of_notMem members v hmem, keys, List.map_append, List.map_singleton,
      List.nodup_append_comm]
    exact List.nodup_cons.mpr ⟨hmem, h⟩

theorem nodup_keys_insertAll (h : (keys members).Nodup) :
    (keys (insertAll members extra)).Nodup := by
  induction extra generalizing members with
  | nil => exact h
  | cons entry extra ih => exact ih (nodup_keys_insert h)

/-- Members with keys of their own are stored in their order behind those that are there. -/
theorem insertAll_of_nodup (h : (keys (members ++ extra)).Nodup) :
    insertAll members extra = members ++ extra := by
  induction extra generalizing members with
  | nil => simp [insertAll]
  | cons entry extra ih =>
    have hnew : entry.1 ∉ keys members := by
      intro hmem
      rw [keys, List.map_append, List.map_cons, List.nodup_append] at h
      exact h.2.2 _ hmem _ List.mem_cons_self rfl
    have hinsert : insert members entry.1 entry.2 = members ++ [entry] :=
      insert_of_notMem members entry.2 hnew
    have hnodup : (keys (members ++ [entry] ++ extra)).Nodup := by simpa using h
    calc insertAll members (entry :: extra)
        = insertAll (insert members entry.1 entry.2) extra := rfl
      _ = members ++ entry :: extra := by rw [hinsert, ih hnodup, List.append_assoc]; rfl

end Members

/-! ## What the reader gives -/

section Reader

variable {α : Type} {step : Step α} {close : Char} {as : List α} {item : Step Json}
  {rounds levels : Nat} {cs left : List Char} {P : Json → Prop}

/-- What a step reads behind the first item of a list: further items, each of them behind a comma,
up to the closing bracket. -/
inductive ReadsMore (step : Step α) (close : Char) : List Char → List α → List Char → Prop
  | done {cs left : List Char} (closes : skipGap cs = close :: left) :
      ReadsMore step close cs [] left
  | more {cs next behind left : List Char} {a : α} {as : List α} (comma : skipGap cs = ',' :: next)
      (reads : step (skipGap next) = .ok (a, behind)) (on : ReadsMore step close behind as left) :
      ReadsMore step close cs (a :: as) left

/-- What a step reads behind an opening bracket: nothing, or items with commas between them. -/
inductive ReadsList (step : Step α) (close : Char) : List Char → List α → List Char → Prop
  | empty {cs left : List Char} (closes : skipGap cs = close :: left) :
      ReadsList step close cs [] left
  | items {cs behind left : List Char} {a : α} {as : List α}
      (reads : step (skipGap cs) = .ok (a, behind)) (on : ReadsMore step close behind as left) :
      ReadsList step close cs (a :: as) left

theorem readsMore_of_readMoreItems (h : readMoreItems item rounds cs = .ok (items, left)) :
    ReadsMore item ']' cs items left := by
  induction rounds generalizing cs items with
  | zero => cases h
  | succ rounds ih =>
    rw [readMoreItems] at h
    split at h
    · cases h
    · rename_i hclose
      cases h
      exact .done hclose
    · rename_i hcomma
      split at h
      · cases h
      · cases h
      · obtain ⟨⟨v, behind⟩, hv, h⟩ := Except.bind_eq_ok_iff.mp h
        obtain ⟨⟨vs, behind'⟩, hvs, heq⟩ := Except.bind_eq_ok_iff.mp h
        cases heq
        exact .more hcomma hv (ih hvs)
    · cases h

theorem readsList_of_readItems (h : readItems item cs = .ok (items, left)) :
    ReadsList item ']' cs items left := by
  unfold readItems at h
  split at h
  · cases h
  · rename_i hclose
    cases h
    exact .empty hclose
  · obtain ⟨⟨v, behind⟩, hv, h⟩ := Except.bind_eq_ok_iff.mp h
    obtain ⟨⟨vs, behind'⟩, hvs, heq⟩ := Except.bind_eq_ok_iff.mp h
    cases heq
    exact .items hv (readsMore_of_readMoreItems hvs)

theorem readsMore_of_readMoreMembers (h : readMoreMembers item rounds cs = .ok (members, left)) :
    ReadsMore (readMember item) '}' cs members left := by
  induction rounds generalizing cs members with
  | zero => cases h
  | succ rounds ih =>
    rw [readMoreMembers] at h
    split at h
    · cases h
    · rename_i hclose
      cases h
      exact .done hclose
    · rename_i hcomma
      split at h
      · cases h
      · cases h
      · obtain ⟨⟨m, behind⟩, hm, h⟩ := Except.bind_eq_ok_iff.mp h
        obtain ⟨⟨ms, behind'⟩, hms, heq⟩ := Except.bind_eq_ok_iff.mp h
        cases heq
        exact .more hcomma hm (ih hms)
    · cases h

theorem exists_readsList_of_readMembers (h : readMembers item cs = .ok (members, left)) :
    ∃ ms, ReadsList (readMember item) '}' cs ms left ∧ members = Members.insertAll [] ms := by
  unfold readMembers at h
  split at h
  · cases h
  · rename_i hclose
    cases h
    exact ⟨[], .empty hclose, rfl⟩
  · obtain ⟨⟨m, behind⟩, hm, h⟩ := Except.bind_eq_ok_iff.mp h
    obtain ⟨⟨ms, behind'⟩, hms, heq⟩ := Except.bind_eq_ok_iff.mp h
    cases heq
    exact ⟨m :: ms, .items hm (readsMore_of_readMoreMembers hms), rfl⟩

theorem ReadsMore.forall_mem {good : α → Prop} (h : ReadsMore step close cs as left)
    (hstep : ∀ cs a left, step cs = .ok (a, left) → good a) : ∀ a ∈ as, good a := by
  induction h with
  | done => simp
  | more _ reads _ ih => exact List.forall_mem_cons.mpr ⟨hstep _ _ _ reads, ih⟩

theorem ReadsList.forall_mem {good : α → Prop} (h : ReadsList step close cs as left)
    (hstep : ∀ cs a left, step cs = .ok (a, left) → good a) : ∀ a ∈ as, good a := by
  cases h with
  | empty => simp
  | items reads on => exact List.forall_mem_cons.mpr ⟨hstep _ _ _ reads, on.forall_mem hstep⟩

/-- Everything that a step reads has a property. -/
def Yields (item : Step Json) (P : Json → Prop) : Prop :=
  ∀ cs v left, item cs = .ok (v, left) → P v

theorem Yields.readItems (h : Yields item P) (hread : readItems item cs = .ok (items, left)) :
    ∀ v ∈ items, P v := (readsList_of_readItems hread).forall_mem h

theorem Yields.readMember {m : String × Json} (h : Yields item P)
    (hread : readMember item cs = .ok (m, left)) : P m.2 := by
  unfold Json.readMember at hread
  split at hread
  · rw [Except.bind_eq_ok_iff] at hread
    obtain ⟨⟨key, more⟩, -, hread⟩ := hread
    dsimp only at hread
    split at hread
    · cases hread
    · rw [Except.bind_eq_ok_iff] at hread
      obtain ⟨⟨v, more'⟩, hv, heq⟩ := hread
      cases heq
      exact h _ _ _ hv
    · cases hread
  · cases hread

theorem Yields.readMembers (h : Yields item P) (hread : readMembers item cs = .ok (members, left)) :
    (Members.keys members).Nodup ∧ ∀ m ∈ members, P m.2 := by
  obtain ⟨ms, hlist, rfl⟩ := exists_readsList_of_readMembers hread
  refine ⟨Members.nodup_keys_insertAll (by simp [Members.keys]), fun m hm => ?_⟩
  have hmem := (Members.mem_insertAll hm).resolve_left (by simp)
  exact hlist.forall_mem (fun _ _ _ => h.readMember) m hmem

/-- A scalar has no items and no members. -/
theorem yields_readScalar (h : ∀ v : Json, v.depth = 0 → P v) : Yields readScalar P := by
  intro cs v left hread
  unfold readScalar at hread
  split at hread
  · cases hread
  · obtain ⟨more, -, heq⟩ := Except.bind_eq_ok_iff.mp hread
    cases heq
    exact h _ rfl
  · obtain ⟨more, -, heq⟩ := Except.bind_eq_ok_iff.mp hread
    cases heq
    exact h _ rfl
  · obtain ⟨more, -, heq⟩ := Except.bind_eq_ok_iff.mp hread
    cases heq
    exact h _ rfl
  · obtain ⟨⟨s, more⟩, -, heq⟩ := Except.bind_eq_ok_iff.mp hread
    cases heq
    exact h _ rfl
  · split at hread
    · obtain ⟨⟨n, more⟩, -, heq⟩ := Except.bind_eq_ok_iff.mp hread
      cases heq
      exact h _ rfl
    · cases hread

/-- Where no bracket may open, a value is a scalar. -/
theorem readValue_zero : readValue 0 cs = match skipGap cs with
    | '[' :: rest => .error (.within .tooDeep ('[' :: rest))
    | '{' :: rest => .error (.within .tooDeep ('{' :: rest))
    | more => readScalar more := by
  rw [readValue.eq_def]
  dsimp only
  generalize skipGap cs = more
  split <;> simp_all

theorem readValue_succ : readValue (levels + 1) cs = match skipGap cs with
    | '[' :: rest => do
      let (items, rest) ← readItems (readValue levels) rest
      return (.array items, rest)
    | '{' :: rest => do
      let (members, rest) ← readMembers (readValue levels) rest
      return (.object members, rest)
    | more => readScalar more := by
  rw [readValue.eq_def]
  dsimp only
  generalize skipGap cs = more
  split <;> simp_all

/-- What is read where brackets may open `levels` deep has a property of that number, if scalars
have it always and arrays and objects have it from their items and from their members, whose
keys are distinct. -/
theorem yields_readValue {Q : Nat → Json → Prop} (hscalar : ∀ n v, depth v = 0 → Q n v)
    (harray : ∀ n items, (∀ v ∈ items, Q n v) → Q (n + 1) (.array items))
    (hobject : ∀ n ms, (Members.keys ms).Nodup → (∀ m ∈ ms, Q n m.2) → Q (n + 1) (.object ms)) :
    Yields (readValue levels) (Q levels) := by
  induction levels with
  | zero =>
    intro cs v left h
    rw [readValue_zero] at h
    split at h
    · cases h
    · cases h
    · exact yields_readScalar (hscalar 0) _ _ _ h
  | succ levels ih =>
    intro cs v left h
    rw [readValue_succ] at h
    split at h
    · obtain ⟨⟨items, more⟩, hitems, heq⟩ := Except.bind_eq_ok_iff.mp h
      cases heq
      exact harray _ _ (ih.readItems hitems)
    · obtain ⟨⟨members, more⟩, hmembers, heq⟩ := Except.bind_eq_ok_iff.mp h
      cases heq
      have hread := ih.readMembers hmembers
      exact hobject _ _ hread.1 hread.2
    · exact yields_readScalar (hscalar _) _ _ _ h

/-- Whatever a step yields, a text that is read yields it. -/
theorem Yields.of_read {text : String} (hstep : Yields (readValue maxDepth) P)
    (h : read text = .ok v) : P v := by
  unfold read readWhole at h
  split at h
  · cases h
  · rename_i w rest hread
    split at h
    · cases h
      exact hstep _ _ _ hread
    · cases h

/-- **The keys of what is read are distinct at every depth.** -/
theorem hasDistinctKeys_of_read {text : String} (h : read text = .ok v) : v.HasDistinctKeys :=
  Yields.of_read (yields_readValue (Q := fun _ v => v.HasDistinctKeys)
    (fun _ _ => hasDistinctKeys_of_depth_eq_zero) (fun _ _ => hasDistinctKeys_array.mpr)
    fun _ _ hkeys hvalues => hasDistinctKeys_object.mpr ⟨hkeys, hvalues⟩) h

/-- **What is read nests no deeper than the reader allows.** -/
theorem depth_le_of_read {text : String} (h : read text = .ok v) : v.depth ≤ maxDepth :=
  Yields.of_read (yields_readValue (Q := fun levels v => v.depth ≤ levels)
    (fun _ _ hv => hv ▸ Nat.zero_le _)
    (fun _ _ hitems => Nat.succ_le_succ (depthOfItems_le_iff.mpr hitems))
    fun _ _ _ hvalues => Nat.succ_le_succ (depthOfMembers_le_iff.mpr hvalues)) h

end Reader

end IdlCompiler.Json
