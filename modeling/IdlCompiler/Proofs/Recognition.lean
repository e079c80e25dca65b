/-
# Reading values, annotations and types

The steps that read values and types read the phrases of the grammar that nest as deep as
allowed, `reads_parseValue` and `reads_parseType`.  They are read with as many levels as may
still nest, so the statements about them count the levels that are left below the deepest
one.

Annotations are read one after the other, `reads_parseAnnotations`, and what they say is put
together behind them.  Where they may stand is decided only then, so the rules of the
grammar for annotations come in two parts, `allowsOnType_iff` and `allowsOnMember_iff`.
-/
import IdlCompiler.Proofs.Reads
import Mathlib.Logic.Basic

namespace IdlCompiler.Idl

open Parse

variable {depth : Nat} {follow : TokenKind → Prop}

/-! ## Values -/

theorem decodeString_eq_ok_iff {literal text : String} {position : Position} :
    decodeString literal position = .ok text ↔ Json.readStringText literal = .ok text := by
  unfold decodeString
  split <;> simp_all

theorem decodeNumber_eq_ok_iff {literal : String} {position : Position} {v : Json} :
    decodeNumber literal position = .ok v ↔ Json.read literal = .ok v := by
  unfold decodeNumber
  split <;> simp_all

theorem startsWith_memberForm {value : Phrases Json} :
    StartsWith (MemberForm value) fun kind => ∃ literal, kind = .stringLiteral literal := by
  rintro _ _ ⟨kind, -, -, -⟩
  exact ⟨_, _, rfl, _, kind⟩

/-- A value never starts with a mark that closes something. -/
theorem startsWith_isValue (mark : Mark) (hbracket : mark ≠ .openBracket)
    (hbrace : mark ≠ .openBrace) (levels : Nat) :
    StartsWith (IsValue levels) (· ≠ .mark mark) := by
  intro ts v h
  cases levels with
  | zero => exact h.elim
  | succ levels =>
    rcases h with ⟨kind, -⟩ | ⟨kind, -⟩ | ⟨kind⟩ | ⟨kind⟩ | ⟨kind⟩ | ⟨kind, -, -⟩ | ⟨kind, -, -⟩
    all_goals refine ⟨_, _, rfl, ?_⟩
    all_goals simp [kind, hbracket.symm, hbrace.symm]

theorem reads_parseMember {value : Parse Json} {P : Phrases Json}
    (h : Reads depth value P fun _ => True) :
    Reads depth (parseMember value) (MemberForm P) fun _ => True := by
  constructor
  · intro c a c' hends hdepth hstep
    rw [parseMember, current_bind] at hstep
    generalize hkind : c.current.kind = kind at hstep
    split at hstep
    · rename_i literal
      obtain ⟨c₁, hfirst, hstep⟩ := exists_behind_of_advance hends (by simp [hkind]) hstep
      obtain ⟨key, c₂, hdecoded, hstep⟩ := bind_eq_ok_iff.1 hstep
      obtain ⟨_, c₃, hcolon, hstep⟩ := bind_eq_ok_iff.1 hstep
      obtain ⟨v, c₄, hvalue, hstep⟩ := bind_eq_ok_iff.1 hstep
      obtain ⟨rfl, rfl⟩ := pure_eq_ok_iff.1 hstep
      obtain ⟨htext, rfl⟩ := ofReading_eq_ok_iff.1 hdecoded
      obtain ⟨colon, hmark, hsecond⟩ := (expect_eq_ok_iff hfirst.endsOnce').1 hcolon
      obtain ⟨ts, hts, hrest⟩ := h.sound hsecond.endsOnce'
        (hsecond.depth.trans (hfirst.depth.trans hdepth)) hvalue
      exact ⟨_, .member hkind (decodeString_eq_ok_iff.1 htext) hmark hts,
        hfirst.trans (hsecond.trans hrest)⟩
    · exact absurd hstep unexpected_ne_ok
  · rintro c _ _ c' hdepth ⟨hkind, hdecoded, hmark, hvalue⟩ hbehind -
    obtain ⟨c₁, hfirst, hbehind⟩ := hbehind.split_cons
    obtain ⟨c₂, hsecond, hrest⟩ := hbehind.split_cons
    rw [parseMember, current_bind, hfirst.current_eq, hkind]
    simp only []
    rw [bind_of_ok (advance_of_behind hfirst),
      bind_of_ok (ofReading_eq_ok_iff.2 ⟨decodeString_eq_ok_iff.2 hdecoded, rfl⟩),
      bind_of_ok ((expect_eq_ok_iff hfirst.endsOnce').2 ⟨_, hmark, hsecond⟩),
      bind_of_ok
        (h.complete (hsecond.depth.trans (hfirst.depth.trans hdepth)) hvalue hrest trivial)]
    rfl

/-- Reading a value, if the values inside are read. -/
theorem reads_parseValueIn_succ {levels : Nat} {P : Phrases Json}
    (h : Reads (depth + 1) (parseValueIn levels) P fun _ => True)
    (hitems : StartsWith P (· ≠ .mark .closeBracket)) (hdepth : depth < maxNesting) :
    Reads depth (parseValueIn (levels + 1)) (ValueForm P) fun _ => True := by
  rw [parseValueIn]
  refine Reads.nested ?_ hdepth
  -- the items of an array and the members of an object
  have hvalues := (h.items .closeBracket trivial trivial nofun hitems).map Json.array
  have hmembers := ((reads_parseMember h).items .closeBrace trivial trivial nofun
    (fun ts a hphrase => by
      obtain ⟨t, us, hts, literal, hkind⟩ := startsWith_memberForm ts a hphrase
      exact ⟨t, us, hts, by simp [hkind]⟩)).map
    fun members => Json.object (Json.Members.insertAll [] members)
  have hstrings (r : Reading String) : Reads (depth + 1) _ _ _ :=
    (Reads.ofReading r).map Json.string
  constructor
  · intro c a c' hends hc hstep
    rw [current_bind] at hstep
    generalize hkind : c.current.kind = kind at hstep
    split at hstep
    · obtain ⟨_, ⟨text, ⟨rfl, htext⟩, rfl⟩, hbehind⟩ :=
        (hstrings _).sound_advance hends hc (by simp [hkind]) hstep
      exact ⟨_, .string hkind (decodeString_eq_ok_iff.1 htext), hbehind⟩
    · obtain ⟨_, ⟨rfl, hdecoded⟩, hbehind⟩ :=
        (Reads.ofReading _).sound_advance hends hc (by simp [hkind]) hstep
      exact ⟨_, .number hkind (decodeNumber_eq_ok_iff.1 hdecoded), hbehind⟩
    · obtain ⟨_, ⟨rfl, rfl⟩, hbehind⟩ :=
        (Reads.pure _).sound_advance hends hc (by simp [hkind]) hstep
      exact ⟨_, .yes hkind, hbehind⟩
    · obtain ⟨_, ⟨rfl, rfl⟩, hbehind⟩ :=
        (Reads.pure _).sound_advance hends hc (by simp [hkind]) hstep
      exact ⟨_, .no hkind, hbehind⟩
    · obtain ⟨_, ⟨rfl, rfl⟩, hbehind⟩ :=
        (Reads.pure _).sound_advance hends hc (by simp [hkind]) hstep
      exact ⟨_, .null hkind, hbehind⟩
    · obtain ⟨_, ⟨values, ⟨ts, t, rfl, hts, ht⟩, rfl⟩, hbehind⟩ :=
        hvalues.sound_advance hends hc (by simp [hkind]) hstep
      exact ⟨_, .array hkind hts ht, hbehind⟩
    · obtain ⟨_, ⟨members, ⟨ts, t, rfl, hts, ht⟩, rfl⟩, hbehind⟩ :=
        hmembers.sound_advance hends hc (by simp [hkind]) hstep
      exact ⟨_, .object hkind hts ht, hbehind⟩
    · exact absurd hstep missing_ne_ok
  · rintro c _ _ c' hc hphrase hbehind -
    cases hphrase with
    -- the first token of the phrase decides which branch of the step is taken
    | string hkind hdecoded =>
      rw [current_bind, hbehind.current_eq, hkind]
      exact (hstrings _).complete_advance hc ⟨_, ⟨rfl, decodeString_eq_ok_iff.2 hdecoded⟩, rfl⟩
        hbehind trivial
    | number hkind hdecoded =>
      rw [current_bind, hbehind.current_eq, hkind]
      exact (Reads.ofReading _).complete_advance hc ⟨rfl, decodeNumber_eq_ok_iff.2 hdecoded⟩
        hbehind trivial
    | yes hkind | no hkind | null hkind =>
      rw [current_bind, hbehind.current_eq, hkind]
      exact (Reads.pure _).complete_advance hc ⟨rfl, rfl⟩ hbehind trivial
    | array hkind hts ht =>
      rw [current_bind, hbehind.current_eq, hkind]
      exact hvalues.complete_advance hc ⟨_, ⟨_, _, rfl, hts, ht⟩, rfl⟩ hbehind trivial
    | object hkind hts ht =>
      rw [current_bind, hbehind.current_eq, hkind]
      exact hmembers.complete_advance hc ⟨_, ⟨_, _, rfl, hts, ht⟩, rfl⟩ hbehind trivial

/-- The step for values reads values that nest as deep as allowed. -/
theorem reads_parseValue : Reads 0 parseValue (IsValue maxNesting) fun _ => True := by
  refine Reads.allLevels (fun _ _ h => h) (fun hdeep => ?_) fun {_ levels} h hdepth => ?_
  · rw [parseValueIn]
    exact Reads.nested_ne_ok hdeep
  · exact reads_parseValueIn_succ h (startsWith_isValue .closeBracket nofun nofun levels) hdepth

/-! ## Annotations -/

theorem startsWith_isNote : StartsWith IsNote (· = .mark .atSign) := by
  rintro _ _ ⟨hsign, -, -, -, -⟩
  exact ⟨_, _, rfl, hsign⟩

theorem repeated_and_iff {α : Type} {P : Phrases α} {Q : α → Prop} {ts : List Token}
    {as : List α} :
    Repeated (fun ts a => P ts a ∧ Q a) ts as ↔ Repeated P ts as ∧ ∀ a ∈ as, Q a := by
  constructor
  · intro h
    induction h with
    | nil => exact ⟨.nil, by simp⟩
    | cons hhead _ ih => exact ⟨.cons hhead.1 ih.1, List.forall_mem_cons.2 ⟨hhead.2, ih.2⟩⟩
  · rintro ⟨h, hall⟩
    induction h with
    | nil => exact .nil
    | cons hhead _ ih =>
      obtain ⟨ha, has⟩ := List.forall_mem_cons.1 hall
      exact .cons ⟨hhead, ha⟩ (ih has)

/-- The name of an annotation is one that the language knows, or not reserved. -/
def Annotation.IsNamed (a : Annotation) : Prop := a.name = "namespace" ∨ ¬ isReservedKey a.name

theorem sound_parseAnnotation {c c' : Cursor} {a : Annotation} (hends : EndsOnce c.tokens)
    (hdepth : c.depth = 0) (hsign : c.current.kind = .mark .atSign)
    (hstep : parseAnnotation c = .ok a c') :
    ∃ ts, (IsNote ts a ∧ a.IsNamed) ∧ Behind c ts c' := by
  unfold parseAnnotation at hstep
  rw [current_bind] at hstep
  obtain ⟨c₁, hfirst, hstep⟩ := exists_behind_of_advance hends (by simp [hsign]) hstep
  obtain ⟨name, c₂, hname, hstep⟩ := bind_eq_ok_iff.1 hstep
  split at hstep
  · obtain ⟨_, _, hthrow, -⟩ := bind_eq_ok_iff.1 hstep
    cases hthrow
  · rename_i hnamed
    obtain ⟨_, c₃, hopen, hstep⟩ := bind_eq_ok_iff.1 hstep
    obtain ⟨v, c₄, hvalue, hstep⟩ := bind_eq_ok_iff.1 hstep
    obtain ⟨_, c₅, hclose, hstep⟩ := bind_eq_ok_iff.1 hstep
    obtain ⟨rfl, rfl⟩ := pure_eq_ok_iff.1 hstep
    obtain ⟨n, hn, hsecond⟩ := (expectWord_eq_ok_iff hfirst.endsOnce').1 hname
    obtain ⟨o, ho, hthird⟩ := (expect_eq_ok_iff hsecond.endsOnce').1 hopen
    have hhead := hfirst.trans (hsecond.trans hthird)
    obtain ⟨ts, hts, hrest⟩ :=
      reads_parseValue.sound hhead.endsOnce' (hhead.depth.trans hdepth) hvalue
    obtain ⟨t, ht, hlast⟩ := (expect_eq_ok_iff hrest.endsOnce').1 hclose
    refine ⟨_, ⟨.note hsign hn ho hts ht, ?_⟩, hhead.trans (hrest.trans hlast)⟩
    exact or_iff_not_imp_left.2 fun hne hreserved => hnamed ⟨hne, hreserved⟩

theorem complete_parseAnnotation {c c' : Cursor} {a : Annotation} {ts : List Token}
    (hdepth : c.depth = 0) (hphrase : IsNote ts a ∧ a.IsNamed) (hbehind : Behind c ts c') :
    parseAnnotation c = .ok a c' := by
  obtain ⟨⟨hsign, hn, ho, hvalue, hclose⟩, hnamed⟩ := hphrase
  obtain ⟨c₁, hfirst, hbehind⟩ := hbehind.split_cons
  obtain ⟨c₂, hsecond, hbehind⟩ := hbehind.split_cons
  obtain ⟨c₃, hthird, hbehind⟩ := hbehind.split_cons
  obtain ⟨c₄, hrest, hlast⟩ := hbehind.split
  have hhead := hfirst.trans (hsecond.trans hthird)
  unfold parseAnnotation
  rw [current_bind, bind_of_ok (advance_of_behind hfirst),
    bind_of_ok ((expectWord_eq_ok_iff hfirst.endsOnce').2 ⟨_, hn, hsecond⟩), if_neg]
  · change (Parse.expect _ >>= _) _ = _
    rw [bind_of_ok ((expect_eq_ok_iff hsecond.endsOnce').2 ⟨_, ho, hthird⟩),
      bind_of_ok (reads_parseValue.complete (hhead.depth.trans hdepth) hvalue hrest trivial),
      bind_of_ok ((expect_eq_ok_iff hrest.endsOnce').2 ⟨_, hclose, hlast⟩), hfirst.current_eq]
    rfl
  · rintro ⟨hne, hreserved⟩
    exact hnamed.elim hne fun hfree => hfree hreserved

/-- The annotations before a declaration, apart from where they may stand. -/
theorem reads_parseAnnotations :
    Reads 0 parseAnnotations
      (fun ts as => Repeated IsNote ts as ∧ ∀ a ∈ as, a.IsNamed) (· ≠ .mark .atSign) := by
  have h : Reads 0 parseAnnotations (Repeated fun ts a => IsNote ts a ∧ a.IsNamed)
      (· ≠ .mark .atSign) :=
    Reads.whileSeeing sound_parseAnnotation complete_parseAnnotation
      fun ts a hphrase => startsWith_isNote ts a hphrase.1
  constructor
  · intro c as c' hends hdepth hstep
    obtain ⟨ts, hts, hbehind⟩ := h.sound hends hdepth hstep
    exact ⟨ts, repeated_and_iff.1 hts, hbehind⟩
  · intro c ts as c' hdepth hphrase hbehind hfollow
    exact h.complete hdepth (repeated_and_iff.2 hphrase) hbehind hfollow

/-! ### What annotations say -/

/-- One annotation before a type, behind others that gave a namespace and properties. -/
def noteType : Option String × Properties → Annotation → Reading (Option String × Properties)
  | (space, properties), a =>
    if a.name = "namespace" then
      match a.value with
      | .string s => .ok (some s, properties)
      | found => .error (.fault a.position (.annotationNotText a.name found))
    else .ok (space, Json.Members.insert properties a.name a.value)

/-- One annotation before a member, behind others that gave properties. -/
def noteMember (properties : Properties) (a : Annotation) : Reading Properties :=
  if a.name = "namespace" then .error (.fault a.position .misplacedNamespace)
  else .ok (Json.Members.insert properties a.name a.value)

theorem noteType_eq_ok_iff {before after : Option String × Properties} {a : Annotation} :
    noteType before a = .ok after ↔ (a.name = "namespace" → a.value.string?.isSome) ∧
      after = ((spaceOf [a]).or before.1, if a.name = "namespace" then before.2
        else Json.Members.insert before.2 a.name a.value) := by
  rw [eq_comm (a := after)]
  by_cases hname : a.name = "namespace"
  · cases hvalue : a.value <;> simp [noteType, hname, hvalue, spaceOf, Json.string?]
  · simp [noteType, hname, spaceOf]

theorem spaceOf_cons {a : Annotation} {annotations : List Annotation} :
    spaceOf (a :: annotations) = (spaceOf annotations).or (spaceOf [a]) := by
  simp [spaceOf, List.findSome?_append]

theorem foldlM_noteType_eq_ok_iff (annotations : List Annotation)
    (before after : Option String × Properties) :
    annotations.foldlM noteType before = .ok after ↔
      (∀ a ∈ annotations, a.name = "namespace" → a.value.string?.isSome) ∧
        after = ((spaceOf annotations).or before.1, Json.Members.insertAll before.2
          ((annotations.filter fun a => a.name ≠ "namespace").map fun a => (a.name, a.value))) := by
  induction annotations generalizing before with
  | nil =>
    rw [eq_comm (a := after)]
    simp [spaceOf, pure, Except.pure, Json.Members.insertAll]
  | cons a annotations ih =>
    rw [List.foldlM_cons, List.forall_mem_cons, spaceOf_cons, Option.or_assoc]
    cases hstep : noteType before a with
    | error e =>
      -- only a namespace that is no string stops the annotations
      have hfails : ¬ (a.name = "namespace" → a.value.string?.isSome) := by
        intro hsome
        have hok : noteType before a = .ok _ := noteType_eq_ok_iff.2 ⟨hsome, rfl⟩
        rw [hstep] at hok
        cases hok
      simp [bind, Except.bind, hfails]
    | ok middle =>
      obtain ⟨hsome, rfl⟩ := noteType_eq_ok_iff.1 hstep
      change annotations.foldlM noteType _ = _ ↔ _
      rw [ih]
      by_cases hname : a.name = "namespace"
      · simp [hname, hsome hname, Json.Members.insertAll]
      · simp [hname, Json.Members.insertAll]

/-- Properties are stored one after the other, and the last namespace counts. -/
theorem applyTypeAnnotations_eq_ok_iff {annotations : List Annotation} {space : Option String}
    {properties : Properties} :
    applyTypeAnnotations annotations = .ok (space, properties) ↔
      (∀ a ∈ annotations, a.name = "namespace" → a.value.string?.isSome) ∧
        space = spaceOf annotations ∧ properties = propertiesOf annotations := by
  have h := foldlM_noteType_eq_ok_iff annotations (none, []) (space, properties)
  rwa [Option.or_none, Prod.mk.injEq] at h

theorem applyMemberAnnotations_eq_ok_iff {annotations : List Annotation}
    {properties : Properties} :
    applyMemberAnnotations annotations = .ok properties ↔
      (∀ a ∈ annotations, a.name ≠ "namespace") ∧ properties = propertiesOf annotations := by
  have h : ∀ before, annotations.foldlM noteMember before = .ok properties ↔
      (∀ a ∈ annotations, a.name ≠ "namespace") ∧ properties = Json.Members.insertAll before
        ((annotations.filter fun a => a.name ≠ "namespace").map fun a => (a.name, a.value)) := by
    induction annotations with
    | nil =>
      intro before
      rw [eq_comm (a := properties)]
      simp [pure, Except.pure, Json.Members.insertAll]
    | cons a annotations ih =>
      intro before
      rw [List.foldlM_cons, List.forall_mem_cons]
      by_cases hname : a.name = "namespace"
      · simp [noteMember, hname, bind, Except.bind]
      · have hnote : noteMember before a = .ok (Json.Members.insert before a.name a.value) := by
          simp [noteMember, hname]
        rw [hnote]
        change annotations.foldlM noteMember _ = _ ↔ _
        rw [ih]
        simp [hname, Json.Members.insertAll]
  exact h []

/-! ### Where annotations may stand -/

/-- Annotations that are read may stand before a type if they say something about it. -/
theorem allowsOnType_iff {annotations : List Annotation} :
    Rules.language.AllowsOnType annotations ↔ (∀ a ∈ annotations, a.IsNamed) ∧
      ∀ a ∈ annotations, a.name = "namespace" → a.value.string?.isSome := by
  rw [Rules.AllowsOnType, ← forall₂_and]
  refine forall₂_congr fun a _ => ?_
  by_cases hname : a.name = "namespace"
  · simp [hname, Annotation.IsNamed]
  · simp [hname, Annotation.IsNamed, Rules.language]

theorem allowsOnMember_iff {annotations : List Annotation} :
    Rules.language.AllowsOnMember annotations ↔ (∀ a ∈ annotations, a.IsNamed) ∧
      ∀ a ∈ annotations, a.name ≠ "namespace" := by
  rw [Rules.AllowsOnMember, ← forall₂_and]
  refine forall₂_congr fun a _ => ?_
  by_cases hname : a.name = "namespace"
  · simp [hname]
  · simp [hname, Annotation.IsNamed, Rules.language]

/-! ## Types -/

/-- A type starts with a word. -/
theorem startsWith_isType (levels : Nat) :
    StartsWith (IsType levels) fun kind => ∃ text, kind = .word text := by
  intro ts s h
  cases levels with
  | zero => exact h.elim
  | succ levels =>
    rcases h with ⟨kind, -⟩ | ⟨kind, -, -, -⟩ | ⟨kind, -, -, -⟩ | ⟨kind, -, -, -⟩
    all_goals exact ⟨_, _, rfl, _, kind⟩

/-- Reading a type, if the types inside are read. -/
theorem reads_parseTypeIn_succ {levels : Nat} {P : Phrases Schema}
    (h : Reads (depth + 1) (parseTypeIn levels) P fun _ => True) (hdepth : depth < maxNesting) :
    Reads depth (parseTypeIn (levels + 1)) (TypeForm P) fun _ => True := by
  rw [parseTypeIn]
  refine Reads.nested ?_ hdepth
  have hangles := fun f : Schema → Schema =>
    h.enclosed f .openAngle .closeAngle trivial
  have hbraces := (h.betweenCommas trivial).enclosed Schema.union .openBrace .closeBrace
    ⟨trivial, nofun⟩
  constructor
  · intro c a c' hends hc hstep
    rw [current_bind] at hstep
    generalize hkind : c.current.kind = kind at hstep
    split at hstep
    · obtain ⟨_, ⟨o, ts, t, s, rfl, ho, hts, ht, rfl⟩, hbehind⟩ :=
        (hangles .array).sound_advance hends hc (by simp [hkind]) hstep
      exact ⟨_, .array hkind ho hts ht, hbehind⟩
    · obtain ⟨_, ⟨o, ts, t, s, rfl, ho, hts, ht, rfl⟩, hbehind⟩ :=
        (hangles .map).sound_advance hends hc (by simp [hkind]) hstep
      exact ⟨_, .map hkind ho hts ht, hbehind⟩
    · obtain ⟨_, ⟨o, ts, t, s, rfl, ho, hts, ht, rfl⟩, hbehind⟩ :=
        hbraces.sound_advance hends hc (by simp [hkind]) hstep
      exact ⟨_, .union hkind ho hts ht, hbehind⟩
    · exact absurd hstep fail_ne_ok
    · rename_i text harray hmap hunion hvoid
      obtain ⟨_, ⟨rfl, rfl⟩, hbehind⟩ :=
        (Reads.pure _).sound_advance hends hc (by simp [hkind]) hstep
      refine ⟨_, .word hkind ?_, hbehind⟩
      simp_all [typeWords]
    · exact absurd hstep missing_ne_ok
  · rintro c _ _ c' hc hphrase hbehind -
    cases hphrase with
    | word hkind hfree =>
      -- the word is none of the four that stand for something else
      have hcurrent := hbehind.current_eq ▸ hkind
      rw [current_bind]
      generalize c.current.kind = kind at hcurrent
      split
      · simp_all [typeWords]
      · simp_all [typeWords]
      · simp_all [typeWords]
      · simp_all [typeWords]
      · obtain rfl := TokenKind.word.inj hcurrent
        exact (Reads.pure _).complete_advance hc ⟨rfl, rfl⟩ hbehind trivial
      · rename_i hother
        exact absurd hcurrent (hother _)
    | array hkind ho hts ht =>
      rw [current_bind, hbehind.current_eq, hkind]
      exact (hangles .array).complete_advance hc ⟨_, _, _, _, rfl, ho, hts, ht, rfl⟩ hbehind
        trivial
    | map hkind ho hts ht =>
      rw [current_bind, hbehind.current_eq, hkind]
      exact (hangles .map).complete_advance hc ⟨_, _, _, _, rfl, ho, hts, ht, rfl⟩ hbehind trivial
    | union hkind ho hts ht =>
      rw [current_bind, hbehind.current_eq, hkind]
      exact hbraces.complete_advance hc ⟨_, _, _, _, rfl, ho, hts, ht, rfl⟩ hbehind trivial

/-- The step for types reads types that nest as deep as allowed. -/
theorem reads_parseType : Reads 0 parseType (IsType maxNesting) fun _ => True := by
  refine Reads.allLevels (fun _ _ h => h) (fun hdeep => ?_) fun h hdepth => ?_
  · rw [parseTypeIn]
    exact Reads.nested_ne_ok hdeep
  · exact reads_parseTypeIn_succ h hdepth

end IdlCompiler.Idl
