/-
# Equal values with different texts

Values that are the same may have different texts, as equality looks neither at the order of
members nor at the sign of zero.  `Json.layout` keeps what equality does not look at: the keys
of every object in their order and the sign of every number.  Among values that are the same,
the layout tells apart what the text tells apart, `Json.toPrettyText_eq_iff`.

Texts and layouts are treated in the same way.  Both are codes that are read without looking
behind their ends, so that what follows does not matter, `Json.Cancels`.
-/
import Mathlib
import IdlCompiler.Proofs.PrettyText

namespace IdlCompiler.Json

/-! ## Numbers -/

namespace Number

/-- Tells whether a number has a minus sign. -/
def isMinus : Number → Bool
  | natural _ => false
  | negative _ => true
  | real x => x.toBits >>> 63 = 1

/-- Numbers that are the same are equal, but for the two zeros. -/
theorem eq_or_zeros_of_same {m n : Number} (h : m.same n) :
    m = n ∨ (m = real 0 ∧ n = real (-0)) ∨ (m = real (-0) ∧ n = real 0) := by
  cases m with
  | natural a =>
    cases n with
    | natural b => exact .inl (congrArg natural (by simpa [same] using h))
    | negative b => cases h
    | real y => cases h
  | negative a =>
    cases n with
    | natural b => cases h
    | negative b => exact .inl (congrArg negative (by simpa [same] using h))
    | real y => cases h
  | real x =>
    cases n with
    | natural b => cases h
    | negative b => cases h
    | real y =>
      obtain ⟨-, -, rfl | ⟨rfl, rfl⟩ | ⟨rfl, rfl⟩⟩ := Float.beq_iff_ne_nan_and_eq.mp h
      · exact .inl rfl
      · exact .inr (.inl ⟨rfl, rfl⟩)
      · exact .inr (.inr ⟨rfl, rfl⟩)

theorem text_zero : (real 0).text = ['0', '.', '0'] := by decide

theorem text_minusZero : (real (-0)).text = ['-', '0', '.', '0'] := by decide

end Number

/-! ## Equality of items and members -/

theorem forall₂_imp_of_mem {α β : Type} {related other : α → β → Prop} {as : List α} {bs : List β}
    (h : List.Forall₂ related as bs) (himp : ∀ a ∈ as, ∀ b, related a b → other a b) :
    List.Forall₂ other as bs :=
  ((List.forall₂_and_left as bs).mpr ⟨himp, h⟩).imp fun _ b h => h.1 b h.2

theorem sameItems_iff {vs ws : List Json} :
    sameItems vs ws ↔ List.Forall₂ (fun v w => v.same w) vs ws := by
  induction vs generalizing ws with
  | nil => cases ws <;> simp [sameItems]
  | cons v vs ih => cases ws <;> simp [sameItems, ih]

theorem sameMembers_iff {ms ns : Members} :
    sameMembers ms ns ↔ ∀ m ∈ ms, ∃ w, Members.get? ns m.1 = some w ∧ m.2.same w := by
  induction ms with
  | nil => simp [sameMembers]
  | cons m ms ih =>
    obtain ⟨k, v⟩ := m
    rw [sameMembers, Bool.and_eq_true, ih, List.forall_mem_cons]
    refine and_congr_left' ?_
    cases Members.get? ns k <;> simp

namespace Members

/-- There are as many members on both sides, and those with one key have related values. -/
structure Paired (related : Json → Json → Prop) (ms ns : Members) : Prop where
  length_eq : ms.length = ns.length
  exists_get? : ∀ m ∈ ms, ∃ w, get? ns m.1 = some w ∧ related m.2 w

variable {related related' : Json → Json → Prop} {ms ns : Members} {k l : String} {v w : Json}

theorem Paired.imp (h : Paired related ms ns)
    (himp : ∀ m ∈ ms, ∀ w, related m.2 w → related' m.2 w) : Paired related' ms ns := by
  refine ⟨h.length_eq, fun m hm => ?_⟩
  obtain ⟨w, hget, hw⟩ := h.exists_get? m hm
  exact ⟨w, hget, himp m hm w hw⟩

/-- Members that begin with one key are paired one after the other. -/
theorem Paired.of_cons (h : Paired related ((k, v) :: ms) ((k, w) :: ns))
    (hnodup : (keys ((k, v) :: ms)).Nodup) : related v w ∧ Paired related ms ns := by
  have hlength := h.length_eq
  have hget := h.exists_get?
  rw [List.forall_mem_cons] at hget
  obtain ⟨⟨_, hw, hvw⟩, hrest⟩ := hget
  obtain rfl : w = _ := by simpa [get?] using hw
  refine ⟨hvw, by simpa using hlength, fun m hm => ?_⟩
  have hne : k ≠ m.1 := by
    intro hk
    have hmem : m.1 ∈ keys ms := List.mem_map_of_mem hm
    exact (List.nodup_cons.mp hnodup).1 (hk ▸ hmem)
  obtain ⟨u, hu, hmu⟩ := hrest m hm
  rw [get?, if_neg hne] at hu
  exact ⟨u, hu, hmu⟩

/-- Paired members with equal keys stand at equal places. -/
theorem Paired.forall₂ (h : Paired related ms ns) (hnodup : (keys ms).Nodup)
    (hkeys : keys ms = keys ns) :
    List.Forall₂ (fun m n => m.1 = n.1 ∧ related m.2 n.2) ms ns := by
  induction ms generalizing ns with
  | nil =>
    obtain rfl := List.length_eq_zero_iff.mp h.length_eq.symm
    exact .nil
  | cons m ms ih =>
    obtain ⟨k, v⟩ := m
    cases ns with
    | nil => cases h.length_eq
    | cons n ns =>
      obtain ⟨l, w⟩ := n
      obtain ⟨rfl, htail⟩ : k = l ∧ keys ms = keys ns := by simpa [keys] using hkeys
      obtain ⟨hvw, hrest⟩ := h.of_cons hnodup
      exact .cons ⟨rfl, hvw⟩ (ih hrest (List.nodup_cons.mp hnodup).2 htail)

end Members

theorem same_object_iff {ms ns : Members} : (object ms).same (object ns) ↔
    Members.Paired (fun v w => v.same w) ms ns := by
  rw [same, Bool.and_eq_true, beq_iff_eq, sameMembers_iff]
  exact ⟨fun ⟨hlength, hget⟩ => ⟨hlength, hget⟩, fun h => ⟨h.length_eq, h.exists_get?⟩⟩

/-- Induction over two values that are the same. -/
theorem same_induction {motive : Json → Json → Prop} (refl : ∀ v, motive v v)
    (number : ∀ m n : Number, m.same n → motive (.number m) (.number n))
    (array : ∀ vs ws, List.Forall₂ motive vs ws → motive (.array vs) (.array ws))
    (object : ∀ ms ns, (Members.keys ms).Nodup → Members.Paired motive ms ns →
      motive (.object ms) (.object ns))
    {v w : Json} (hsame : v.same w) (hkeys : v.HasDistinctKeys) : motive v w := by
  induction v using Json.induction generalizing w with
  | null =>
    cases w with
    | null => exact refl _
    | _ => cases hsame
  | bool a =>
    cases w with
    | bool b =>
      obtain rfl : a = b := by simpa [same] using hsame
      exact refl _
    | _ => cases hsame
  | number m =>
    cases w with
    | number n => exact number m n hsame
    | _ => cases hsame
  | string a =>
    cases w with
    | string b =>
      obtain rfl : a = b := by simpa [same] using hsame
      exact refl _
    | _ => cases hsame
  | array vs ih =>
    cases w with
    | array ws =>
      rw [hasDistinctKeys_array] at hkeys
      have hitems := sameItems_iff.mp hsame
      exact array vs ws (forall₂_imp_of_mem hitems fun v hv w hw => ih v hv hw (hkeys v hv))
    | _ => cases hsame
  | object ms ih =>
    cases w with
    | object ns =>
      rw [hasDistinctKeys_object] at hkeys
      rw [same_object_iff] at hsame
      exact object ms ns hkeys.1 (hsame.imp fun m hm w hw => ih m hm hw (hkeys.2 m hm))
    | _ => cases hsame

/-! ## Layouts -/

/-- What a value shows of its layout, apart from what it holds. -/
def mark : Json → List String × Bool
  | object members => (Members.keys members, false)
  | number n => ([], n.isMinus)
  | _ => ([], false)

/-- The keys of every object inside a value in their order, and the sign of every number. -/
def layout (v : Json) : List (List String × Bool) := v.parts.map mark

theorem partsOfItems_eq_flatMap (items : List Json) : partsOfItems items = items.flatMap parts := by
  induction items with
  | nil => rfl
  | cons v vs ih => rw [partsOfItems, ih, List.flatMap_cons]

theorem partsOfMembers_eq_flatMap (members : Members) :
    partsOfMembers members = members.flatMap fun m => m.2.parts := by
  induction members with
  | nil => rfl
  | cons m ms ih => rw [partsOfMembers, ih, List.flatMap_cons]

theorem layout_array (items : List Json) :
    layout (.array items) = ([], false) :: items.flatMap layout := by
  rw [layout, parts, List.map_cons, partsOfItems_eq_flatMap, List.map_flatMap]
  rfl

theorem layout_object (members : Members) : layout (.object members) =
    (Members.keys members, false) :: members.flatMap fun m => m.2.layout := by
  rw [layout, parts, List.map_cons, partsOfMembers_eq_flatMap, List.map_flatMap]
  rfl

/-! ## Codes that end by themselves -/

/-- Whatever follows, equal codes of `a` and `b` come from equal things. -/
def Cancels {α β : Type} (code : α → List β) (a b : α) : Prop :=
  ∀ r s, code a ++ r = code b ++ s → a = b ∧ r = s

section Cancels

variable {α β : Type} {code : α → List β}

theorem Cancels.refl (a : α) : Cancels code a a := fun _ _ h => ⟨rfl, List.append_cancel_left h⟩

theorem Cancels.eq {a b : α} (h : Cancels code a b) (hcode : code a = code b) : a = b :=
  (h [] [] (by rw [hcode])).1

theorem cancels_flatMap {as bs : List α} (h : List.Forall₂ (Cancels code) as bs) :
    Cancels (fun as => as.flatMap code) as bs := by
  induction h with
  | nil => exact Cancels.refl []
  | cons hab _ ih =>
    intro r s hcode
    simp only [List.flatMap_cons, List.append_assoc] at hcode
    obtain ⟨rfl, hrest⟩ := hab _ _ hcode
    obtain ⟨rfl, rfl⟩ := ih _ _ hrest
    exact ⟨rfl, rfl⟩

end Cancels

/-! ## Numbers and strings -/

theorem cancels_number {m n : Number} (h : m.same n) : Cancels Number.text m n := by
  obtain rfl | ⟨rfl, rfl⟩ | ⟨rfl, rfl⟩ := Number.eq_or_zeros_of_same h
  · exact Cancels.refl m
  · intro r s heq
    simp [Number.text_zero, Number.text_minusZero] at heq
  · intro r s heq
    simp [Number.text_zero, Number.text_minusZero] at heq

theorem eq_of_isMinus_eq {m n : Number} (h : m.same n) (hminus : m.isMinus = n.isMinus) :
    m = n := by
  obtain rfl | ⟨rfl, rfl⟩ | ⟨rfl, rfl⟩ := Number.eq_or_zeros_of_same h
  · rfl
  · exact absurd hminus (by decide)
  · exact absurd hminus (by decide)

/-- String literals end by themselves: they are read back in front of anything. -/
theorem cancels_quoted (s t : String) : Cancels quoted s t := by
  intro r r' h
  have hread : readString (s.toList.flatMap escaped ++ '"' :: r) =
      readString (t.toList.flatMap escaped ++ '"' :: r') := by
    simpa [quoted] using congrArg (fun cs => readString cs.tail) h
  rw [readString_flatMap_escaped, readString_flatMap_escaped] at hread
  cases hread
  exact ⟨rfl, rfl⟩

/-! ## Texts -/

variable {v w : Json} {vs ws : List Json} {ms ns : Members} {level : Nat}

theorem prettyItems_eq_flatMap :
    prettyItems level vs = vs.flatMap fun v => ',' :: newLine level ++ pretty level v := by
  induction vs with
  | nil => rfl
  | cons v vs ih => rw [prettyItems, ih, List.flatMap_cons]

theorem cancels_prettyItems (h : List.Forall₂ (Cancels (pretty level)) vs ws) :
    Cancels (prettyItems level) vs ws := by
  have hitem : List.Forall₂ (Cancels fun v => ',' :: newLine level ++ pretty level v) vs ws := by
    refine h.imp fun v w hvw r s heq => hvw r s ?_
    simpa using heq
  intro r s heq
  simp only [prettyItems_eq_flatMap] at heq
  exact cancels_flatMap hitem r s heq

theorem cancels_prettyMembers (h : Members.Paired (Cancels (pretty level)) ms ns)
    (hnodup : (Members.keys ms).Nodup) : Cancels (prettyMembers level) ms ns := by
  induction ms generalizing ns with
  | nil =>
    obtain rfl := List.length_eq_zero_iff.mp h.length_eq.symm
    exact Cancels.refl []
  | cons m ms ih =>
    obtain ⟨k, v⟩ := m
    cases ns with
    | nil => cases h.length_eq
    | cons n ns =>
      obtain ⟨l, w⟩ := n
      intro r s heq
      simp only [prettyMembers, List.cons_append, List.append_assoc, List.cons.injEq, true_and,
        List.append_cancel_left_eq] at heq
      obtain ⟨rfl, hvalue⟩ := cancels_quoted k l _ _ heq
      simp only [List.cons.injEq, true_and] at hvalue
      obtain ⟨hvw, hpaired⟩ := h.of_cons hnodup
      obtain ⟨rfl, hrest⟩ := hvw _ _ hvalue
      obtain ⟨rfl, rfl⟩ := ih hpaired (List.nodup_cons.mp hnodup).2 _ _ hrest
      exact ⟨rfl, rfl⟩

/-- The text of an array goes on with its items, each after a comma but the first. -/
theorem cancels_pretty_array (h : List.Forall₂ (Cancels (pretty (level + 1))) vs ws) :
    Cancels (pretty level) (.array vs) (.array ws) := by
  intro r s heq
  cases h with
  | nil => exact Cancels.refl _ r s heq
  | @cons v w vs ws hvw hrest =>
    have hitems : prettyItems (level + 1) (v :: vs) ++ (newLine level ++ ']' :: r) =
        prettyItems (level + 1) (w :: ws) ++ (newLine level ++ ']' :: s) := by
      simpa [pretty, prettyItems] using heq
    obtain ⟨heqs, htail⟩ := cancels_prettyItems (.cons hvw hrest) _ _ hitems
    exact ⟨congrArg array heqs, by simpa using htail⟩

/-- The text of an object goes on with its members, each after a comma but the first. -/
theorem cancels_pretty_object (h : Members.Paired (Cancels (pretty (level + 1))) ms ns)
    (hnodup : (Members.keys ms).Nodup) : Cancels (pretty level) (.object ms) (.object ns) := by
  intro r s heq
  cases ms with
  | nil =>
    obtain rfl := List.length_eq_zero_iff.mp h.length_eq.symm
    exact Cancels.refl _ r s heq
  | cons m ms =>
    cases ns with
    | nil => cases h.length_eq
    | cons n ns =>
      have hmembers : prettyMembers (level + 1) (m :: ms) ++ (newLine level ++ '}' :: r) =
          prettyMembers (level + 1) (n :: ns) ++ (newLine level ++ '}' :: s) := by
        simpa [pretty, prettyMembers] using heq
      obtain ⟨heqs, htail⟩ := cancels_prettyMembers h hnodup _ _ hmembers
      exact ⟨congrArg object heqs, by simpa using htail⟩

/-- **Texts of values that are the same end by themselves and tell the values apart.** -/
theorem cancels_pretty (hsame : v.same w) (hkeys : v.HasDistinctKeys) :
    ∀ level, Cancels (pretty level) v w := by
  refine same_induction (motive := fun v w => ∀ level, Cancels (pretty level) v w)
    (fun v level => Cancels.refl v) ?_ ?_ ?_ hsame hkeys
  · intro m n hmn level r s heq
    obtain ⟨rfl, rfl⟩ := cancels_number hmn r s heq
    exact ⟨rfl, rfl⟩
  · intro vs ws h level
    exact cancels_pretty_array (h.imp fun _ _ hvw => hvw (level + 1))
  · intro ms ns hnodup h level
    exact cancels_pretty_object (h.imp fun _ _ _ hvw => hvw (level + 1)) hnodup

/-! ## Layouts tell as much -/

theorem cancels_layout_object (h : Members.Paired (Cancels layout) ms ns)
    (hnodup : (Members.keys ms).Nodup) : Cancels layout (.object ms) (.object ns) := by
  intro r s heq
  simp only [layout_object, List.cons_append, List.cons.injEq, Prod.mk.injEq, and_true] at heq
  obtain ⟨hnames, hvalues⟩ := heq
  have hmembers : List.Forall₂ (Cancels fun m : String × Json => m.2.layout) ms ns := by
    refine (h.forall₂ hnodup hnames).imp fun m n hmn r s hcode => ?_
    obtain ⟨hvalue, hrest⟩ := hmn.2 r s hcode
    exact ⟨Prod.ext hmn.1 hvalue, hrest⟩
  obtain ⟨rfl, rfl⟩ := cancels_flatMap hmembers r s hvalues
  exact ⟨rfl, rfl⟩

/-- **Layouts of values that are the same end by themselves and tell the values apart.** -/
theorem cancels_layout (hsame : v.same w) (hkeys : v.HasDistinctKeys) : Cancels layout v w := by
  refine same_induction Cancels.refl ?_ ?_ ?_ hsame hkeys
  · intro m n hmn r s heq
    obtain ⟨hminus, rfl⟩ : m.isMinus = n.isMinus ∧ r = s := by
      simpa [layout, parts, mark] using heq
    exact ⟨congrArg number (eq_of_isMinus_eq hmn hminus), rfl⟩
  · intro vs ws h r s heq
    simp only [layout_array, List.cons_append, List.cons.injEq, true_and] at heq
    obtain ⟨rfl, rfl⟩ := cancels_flatMap h r s heq
    exact ⟨rfl, rfl⟩
  · intro ms ns hnodup h
    exact cancels_layout_object h hnodup

/-- Values that are the same have one text exactly if they are equal. -/
theorem toPrettyText_eq_iff_eq (hsame : v.same w) (hkeys : v.HasDistinctKeys) :
    v.toPrettyText = w.toPrettyText ↔ v = w := by
  rw [toPrettyText, toPrettyText, String.ofList_inj]
  exact ⟨(cancels_pretty hsame hkeys 0).eq, fun h => h ▸ rfl⟩

/-- **Values that are the same have one text exactly if they have one layout.** -/
theorem toPrettyText_eq_iff (hsame : v.same w) (hkeys : v.HasDistinctKeys) :
    v.toPrettyText = w.toPrettyText ↔ v.layout = w.layout := by
  rw [toPrettyText_eq_iff_eq hsame hkeys]
  exact ⟨fun h => h ▸ rfl, (cancels_layout hsame hkeys).eq⟩

end IdlCompiler.Json
