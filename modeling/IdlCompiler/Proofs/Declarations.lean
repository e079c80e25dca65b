/-
# Reading declarations

The steps that read fields, parameters, messages and named types read the phrases of the
grammar, and so does the step that reads a declaration, `reads_parseDeclaration`.  A step
that starts at annotations or at a keyword has two lemmas: what it reads is a phrase, and it
reads every phrase that nothing can go on behind.
-/
import IdlCompiler.Proofs.Recognition

namespace IdlCompiler.Idl

open Parse

variable {depth : Nat} {follow : TokenKind → Prop} {c c' : Cursor} {ts us : List Token}

/-! ## Fields -/

/-- What starts with annotations and goes on with a word does not start with a bracket that
closes the list around it. -/
theorem exists_head_of_notes {annotations : List Annotation}
    (hnotes : Repeated IsNote ts annotations)
    (hword : ∃ t vs, us = t :: vs ∧ ∃ text, t.kind = .word text) :
    ∃ t vs, ts ++ us = t :: vs ∧ t.kind ≠ .mark .closeParen ∧ t.kind ≠ .mark .closeBrace := by
  cases hnotes with
  | nil =>
    obtain ⟨t, vs, rfl, text, ht⟩ := hword
    exact ⟨t, vs, rfl, by simp [ht], by simp [ht]⟩
  | cons hhead _ =>
    obtain ⟨t, vs, rfl, hsign⟩ := startsWith_isNote _ _ hhead
    exact ⟨t, _, rfl, by simp [hsign], by simp [hsign]⟩

/-- The documentation of tokens that were taken is the one at the cursor. -/
theorem docOf_eq (h : Behind c ts c') (hne : ts ≠ []) : docOf ts = c.current.doc := by
  cases ts with
  | nil => exact absurd rfl hne
  | cons t ts =>
    rw [h.current_eq]
    rfl

/-- The documentation of a phrase that starts with annotations and a type. -/
theorem docOf_notes_type {m : Cursor} {levels : Nat} {schema : Schema} (hfirst : Behind c ts m)
    (hsecond : Behind m us c') (htype : IsType levels us schema) :
    docOf (ts ++ us) = c.current.doc := by
  obtain ⟨u, vs, rfl, -⟩ := startsWith_isType _ _ _ htype
  exact docOf_eq (hfirst.trans hsecond) (by simp)

/-- Where a type is, there is no further annotation. -/
theorem ne_atSign_of_isType {levels : Nat} {schema : Schema} (h : Behind c us c')
    (htype : IsType levels us schema) : c.current.kind ≠ .mark .atSign := by
  obtain ⟨u, vs, rfl, text, hu⟩ := startsWith_isType _ _ _ htype
  simp [h.current_eq, hu]

theorem reads_parseDefault : Reads 0 parseDefault IsDefault (· ≠ .mark .equals) := by
  constructor
  · intro c a c' hends hdepth hstep
    obtain ⟨b, c₁, heat, hstep⟩ := bind_eq_ok_iff.1 hstep
    rcases (eat_eq_ok_iff hends (by simp)).1 heat with ⟨rfl, e, he, hfirst⟩ | ⟨rfl, -, rfl⟩
    · obtain ⟨v, hvalue, rfl⟩ := map_eq_ok_iff.1 hstep
      obtain ⟨ts, hts, hrest⟩ :=
        reads_parseValue.sound hfirst.endsOnce' (hfirst.depth.trans hdepth) hvalue
      exact ⟨_, .some he hts, hfirst.trans hrest⟩
    · obtain ⟨rfl, rfl⟩ := pure_eq_ok_iff.1 hstep
      exact ⟨[], .none, .refl hends⟩
  · intro c ts a c' hdepth hphrase hbehind hfollow
    cases hphrase with
    | none =>
      obtain rfl := hbehind.eq_of_nil
      rw [parseDefault, bind_of_ok (eat_of_ne hfollow)]
      rfl
    | some he hvalue =>
      obtain ⟨c₁, hfirst, hrest⟩ := hbehind.split_cons
      rw [parseDefault, bind_of_ok (eat_of_behind he hfirst)]
      exact map_eq_ok_iff.2 ⟨_, reads_parseValue.complete (hfirst.depth.trans hdepth) hvalue hrest
        trivial, rfl⟩

theorem reads_parseVariable (doc : Option String) (properties : Properties) (schema : Schema) :
    Reads 0 (parseVariable doc properties schema) (IsVariable doc properties schema)
      (· ≠ .mark .equals) := by
  constructor
  · intro c a c' hends hdepth hstep
    rw [parseVariable, current_bind] at hstep
    obtain ⟨name, c₁, hname, hstep⟩ := bind_eq_ok_iff.1 hstep
    obtain ⟨default?, c₂, hdefault, hstep⟩ := bind_eq_ok_iff.1 hstep
    obtain ⟨rfl, rfl⟩ := pure_eq_ok_iff.1 hstep
    obtain ⟨n, hn, hfirst⟩ := (expectWord_eq_ok_iff hends).1 hname
    obtain ⟨ts, hts, hrest⟩ :=
      reads_parseDefault.sound hfirst.endsOnce' (hfirst.depth.trans hdepth) hdefault
    rw [hfirst.current_eq]
    exact ⟨_, .named hn hts, hfirst.trans hrest⟩
  · rintro c _ _ c' hdepth ⟨hn, hdefault⟩ hbehind hfollow
    obtain ⟨c₁, hfirst, hrest⟩ := hbehind.split_cons
    rw [parseVariable, current_bind,
      bind_of_ok ((expectWord_eq_ok_iff hfirst.endsOnce).2 ⟨_, hn, hfirst⟩),
      bind_of_ok (reads_parseDefault.complete (hfirst.depth.trans hdepth) hdefault hrest hfollow),
      hfirst.current_eq]
    rfl

theorem reads_parseFields : Reads 0 parseFields (IsFields .language) fun _ => True := by
  have hvariables := fun doc properties schema =>
    (reads_parseVariable doc properties schema).betweenCommas nofun
  constructor
  · intro c a c' hends hdepth hstep
    rw [parseFields, current_bind] at hstep
    obtain ⟨annotations, c₁, hnotes, hstep⟩ := bind_eq_ok_iff.1 hstep
    obtain ⟨properties, c₂, hproperties, hstep⟩ := bind_eq_ok_iff.1 hstep
    obtain ⟨schema, c₃, htype, hstep⟩ := bind_eq_ok_iff.1 hstep
    obtain ⟨fields, c₄, hfields, hstep⟩ := bind_eq_ok_iff.1 hstep
    obtain ⟨_, c₅, hsemicolon, hstep⟩ := bind_eq_ok_iff.1 hstep
    obtain ⟨rfl, rfl⟩ := pure_eq_ok_iff.1 hstep
    obtain ⟨hmeans, rfl⟩ := ofReading_eq_ok_iff.1 hproperties
    obtain ⟨hmember, rfl⟩ := applyMemberAnnotations_eq_ok_iff.1 hmeans
    obtain ⟨ts, ⟨hts, hnamed⟩, hfirst⟩ := reads_parseAnnotations.sound hends hdepth hnotes
    have hdepth₁ := hfirst.depth.trans hdepth
    obtain ⟨us, hus, hsecond⟩ := reads_parseType.sound hfirst.endsOnce' hdepth₁ htype
    have hhead := hfirst.trans hsecond
    obtain ⟨vs, hvs, hthird⟩ :=
      (hvariables _ _ _).sound hhead.endsOnce' (hhead.depth.trans hdepth) hfields
    obtain ⟨t, ht, hlast⟩ := (expect_eq_ok_iff hthird.endsOnce').1 hsemicolon
    have hbehind := hfirst.trans (hsecond.trans (hthird.trans hlast))
    -- the documentation is taken at the cursor, before it is known what stands there
    rw [← docOf_notes_type hfirst hsecond hus] at hvs
    exact ⟨_, .fields hts (allowsOnMember_iff.2 ⟨hnamed, hmember⟩) hus hvs ht, hbehind⟩
  · rintro c _ _ c' hdepth ⟨hts, hallowed, hus, hvs, ht⟩ hbehind -
    obtain ⟨hnamed, hmember⟩ := allowsOnMember_iff.1 hallowed
    obtain ⟨c₁, hfirst, hbehind⟩ := hbehind.split
    obtain ⟨c₂, hsecond, hbehind⟩ := hbehind.split
    obtain ⟨c₃, hthird, hlast⟩ := hbehind.split
    have hhead := hfirst.trans hsecond
    rw [docOf_notes_type hfirst hsecond hus] at hvs
    rw [parseFields, current_bind,
      bind_of_ok (reads_parseAnnotations.complete hdepth ⟨hts, hnamed⟩ hfirst
        (ne_atSign_of_isType hsecond hus)),
      bind_of_ok (ofReading_eq_ok_iff.2 ⟨applyMemberAnnotations_eq_ok_iff.2 ⟨hmember, rfl⟩, rfl⟩),
      bind_of_ok (reads_parseType.complete (hfirst.depth.trans hdepth) hus hsecond trivial),
      bind_of_ok ((hvariables _ _ _).complete (hhead.depth.trans hdepth) hvs hthird
        (by simp [hlast.current_eq, ht])),
      bind_of_ok ((expect_eq_ok_iff hthird.endsOnce').2 ⟨_, ht, hlast⟩)]
    rfl

theorem reads_parseParameter :
    Reads 0 parseParameter (IsParameter .language) (· ≠ .mark .equals) := by
  constructor
  · intro c a c' hends hdepth hstep
    rw [parseParameter, current_bind] at hstep
    obtain ⟨annotations, c₁, hnotes, hstep⟩ := bind_eq_ok_iff.1 hstep
    obtain ⟨schema, c₂, htype, hstep⟩ := bind_eq_ok_iff.1 hstep
    obtain ⟨name, c₃, hname, hstep⟩ := bind_eq_ok_iff.1 hstep
    obtain ⟨properties, c₄, hproperties, hstep⟩ := bind_eq_ok_iff.1 hstep
    obtain ⟨default?, c₅, hdefault, hstep⟩ := bind_eq_ok_iff.1 hstep
    obtain ⟨rfl, rfl⟩ := pure_eq_ok_iff.1 hstep
    obtain ⟨hmeans, rfl⟩ := ofReading_eq_ok_iff.1 hproperties
    obtain ⟨hmember, rfl⟩ := applyMemberAnnotations_eq_ok_iff.1 hmeans
    obtain ⟨ts, ⟨hts, hnamed⟩, hfirst⟩ := reads_parseAnnotations.sound hends hdepth hnotes
    have hdepth₁ := hfirst.depth.trans hdepth
    obtain ⟨us, hus, hsecond⟩ := reads_parseType.sound hfirst.endsOnce' hdepth₁ htype
    have hhead := hfirst.trans hsecond
    -- the annotations are looked at only behind the name
    obtain ⟨n, hn, hthird⟩ := (expectWord_eq_ok_iff hhead.endsOnce').1 hname
    obtain ⟨vs, hvs, hlast⟩ := reads_parseDefault.sound hthird.endsOnce'
      (hthird.depth.trans (hhead.depth.trans hdepth)) hdefault
    have hbehind := hfirst.trans (hsecond.trans (hthird.trans hlast))
    rw [← docOf_notes_type hfirst hsecond hus]
    exact ⟨_, .parameter hts (allowsOnMember_iff.2 ⟨hnamed, hmember⟩) hus hn hvs, hbehind⟩
  · rintro c _ _ c' hdepth ⟨hts, hallowed, hus, hn, hvs⟩ hbehind hfollow
    obtain ⟨hnamed, hmember⟩ := allowsOnMember_iff.1 hallowed
    obtain ⟨c₁, hfirst, hbehind⟩ := hbehind.split
    obtain ⟨c₂, hsecond, hbehind⟩ := hbehind.split
    obtain ⟨c₃, hthird, hlast⟩ := hbehind.split_cons
    have hhead := hfirst.trans hsecond
    rw [docOf_notes_type hfirst hsecond hus, parseParameter, current_bind,
      bind_of_ok (reads_parseAnnotations.complete hdepth ⟨hts, hnamed⟩ hfirst
        (ne_atSign_of_isType hsecond hus)),
      bind_of_ok (reads_parseType.complete (hfirst.depth.trans hdepth) hus hsecond trivial),
      bind_of_ok ((expectWord_eq_ok_iff hhead.endsOnce').2 ⟨_, hn, hthird⟩),
      bind_of_ok (ofReading_eq_ok_iff.2 ⟨applyMemberAnnotations_eq_ok_iff.2 ⟨hmember, rfl⟩, rfl⟩),
      bind_of_ok (reads_parseDefault.complete (hthird.depth.trans (hhead.depth.trans hdepth)) hvs
        hlast hfollow)]
    rfl

/-! ## Messages -/

theorem startsWith_isParameter {rules : Rules} :
    StartsWith (IsParameter rules) (· ≠ .mark .closeParen) := by
  rintro _ _ ⟨hts, -, hus, -, -⟩
  obtain ⟨t, vs, heq, hclose, -⟩ := exists_head_of_notes hts (startsWith_isType _ _ _ hus)
  rw [← List.append_assoc, heq]
  exact ⟨t, _, rfl, hclose⟩

/-- The schema of an answer is read where no declaration of a type starts. -/
theorem sound_parseResponse {schema : Schema} (hends : EndsOnce c.tokens) (hdepth : c.depth = 0)
    (hstart : ∀ word, c.current.kind = .word word → Rules.language.mayStart word)
    (hstep : parseResponse c = .ok schema c') :
    ∃ ts, IsResponse .language ts schema ∧ Behind c ts c' := by
  obtain ⟨b, c₁, heat, hstep⟩ := bind_eq_ok_iff.1 hstep
  rcases (eat_eq_ok_iff hends (by simp)).1 heat with ⟨rfl, t, ht, hfirst⟩ | ⟨rfl, -, rfl⟩
  · obtain ⟨rfl, rfl⟩ := pure_eq_ok_iff.1 hstep
    exact ⟨_, .void ht, hfirst⟩
  · obtain ⟨ts, hts, hbehind⟩ := reads_parseType.sound hends hdepth hstep
    refine ⟨ts, .type hts fun t ht word hword => ?_, hbehind⟩
    obtain ⟨u, us, rfl, -⟩ := startsWith_isType _ _ _ hts
    obtain rfl : u = t := by simpa using ht
    exact hstart word (hbehind.current_eq ▸ hword)

theorem complete_parseResponse {rules : Rules} {schema : Schema} (hdepth : c.depth = 0)
    (hphrase : IsResponse rules ts schema) (hbehind : Behind c ts c') :
    parseResponse c = .ok schema c' := by
  cases hphrase with
  | void ht =>
    rw [parseResponse, bind_of_ok (eat_of_behind ht hbehind)]
    rfl
  | type hts _ =>
    -- no type starts with `void`, so the first branch is not taken
    have hne : c.current.kind ≠ .word "void" := by
      intro hvoid
      rw [maxNesting, IsType] at hts
      cases hts with
      | word hkind hfree =>
        rw [hbehind.current_eq, hkind] at hvoid
        exact hfree (by simp [TokenKind.word.inj hvoid, typeWords])
      | array hkind _ _ _ | map hkind _ _ _ | union hkind _ _ _ =>
        rw [hbehind.current_eq, hkind] at hvoid
        simp at hvoid
    rw [parseResponse, bind_of_ok (eat_of_ne hne)]
    exact reads_parseType.complete hdepth hts hbehind trivial

theorem reads_parseThrows : Reads depth parseThrows IsThrows
    fun kind => kind ≠ .word "throws" ∧ kind ≠ .mark .comma := by
  have hname : Reads depth (expectWord "error type") IsWord fun _ => True := .expectWord _
  have hnames := hname.betweenCommas trivial
  constructor
  · intro c a c' hends hdepth hstep
    obtain ⟨b, c₁, heat, hstep⟩ := bind_eq_ok_iff.1 hstep
    rcases (eat_eq_ok_iff hends (by simp)).1 heat with ⟨rfl, k, hk, hfirst⟩ | ⟨rfl, -, rfl⟩
    · obtain ⟨ts, hts, hrest⟩ := hnames.sound hfirst.endsOnce' (hfirst.depth.trans hdepth) hstep
      exact ⟨_, .some hk hts, hfirst.trans hrest⟩
    · obtain ⟨rfl, rfl⟩ := pure_eq_ok_iff.1 hstep
      exact ⟨[], .none, .refl hends⟩
  · intro c ts a c' hdepth hphrase hbehind hfollow
    cases hphrase with
    | none =>
      obtain rfl := hbehind.eq_of_nil
      rw [parseThrows, bind_of_ok (eat_of_ne hfollow.1)]
      rfl
    | some hk hts =>
      obtain ⟨c₁, hfirst, hrest⟩ := hbehind.split_cons
      rw [parseThrows, bind_of_ok (eat_of_behind hk hfirst)]
      exact hnames.complete (hfirst.depth.trans hdepth) hts hrest ⟨trivial, hfollow.2⟩

theorem reads_eat_oneWay :
    Reads depth (eat (.word "oneway")) IsOneWay (· ≠ .word "oneway") := by
  constructor
  · intro c a c' hends _ hstep
    rcases (eat_eq_ok_iff hends (by simp)).1 hstep with ⟨rfl, k, hk, hfirst⟩ | ⟨rfl, -, rfl⟩
    · exact ⟨_, .yes hk, hfirst⟩
    · exact ⟨[], .no, .refl hends⟩
  · intro c ts a c' _ hphrase hbehind hfollow
    cases hphrase with
    | no =>
      obtain rfl := hbehind.eq_of_nil
      exact eat_of_ne hfollow
    | yes hk => exact eat_of_behind hk hbehind

/-- What follows the errors of a message is neither `throws` nor a comma. -/
theorem current_ne_of_isOneWay {oneWay : Bool} {semicolon : Token} (hway : IsOneWay ts oneWay)
    (hend : semicolon.kind = .mark .semicolon) (h : Behind c (ts ++ [semicolon]) c') :
    c.current.kind ≠ .word "throws" ∧ c.current.kind ≠ .mark .comma := by
  cases hway with
  | no => simp [(show Behind c [semicolon] c' from h).current_eq, hend]
  | yes hk => simp [h.current_eq, hk]

theorem sound_parseMessage {m : Message} (hends : EndsOnce c.tokens) (hdepth : c.depth = 0)
    (hstart : ∀ word, c.current.kind = .word word → Rules.language.mayStart word)
    (hstep : parseMessage c = .ok m c') :
    ∃ ts, IsMessage .language ts m ∧ Behind c ts c' := by
  have hparameters := reads_parseParameter.items .closeParen nofun nofun nofun
    startsWith_isParameter
  obtain ⟨response, c₁, hresponse, hstep⟩ := bind_eq_ok_iff.1 hstep
  obtain ⟨name, c₂, hname, hstep⟩ := bind_eq_ok_iff.1 hstep
  obtain ⟨_, c₃, hopen, hstep⟩ := bind_eq_ok_iff.1 hstep
  obtain ⟨request, c₄, hrequest, hstep⟩ := bind_eq_ok_iff.1 hstep
  obtain ⟨errors, c₅, herrors, hstep⟩ := bind_eq_ok_iff.1 hstep
  obtain ⟨oneWay, c₆, hway, hstep⟩ := bind_eq_ok_iff.1 hstep
  obtain ⟨_, c₇, hsemicolon, hstep⟩ := bind_eq_ok_iff.1 hstep
  obtain ⟨rfl, rfl⟩ := pure_eq_ok_iff.1 hstep
  obtain ⟨ts, hts, h₁⟩ := sound_parseResponse hends hdepth hstart hresponse
  obtain ⟨n, hn, h₂⟩ := (expectWord_eq_ok_iff h₁.endsOnce').1 hname
  obtain ⟨o, ho, h₃⟩ := (expect_eq_ok_iff h₂.endsOnce').1 hopen
  have hhead := h₁.trans (h₂.trans h₃)
  have hdepth₃ := hhead.depth.trans hdepth
  obtain ⟨_, ⟨us, t, rfl, hus, ht⟩, h₄⟩ := hparameters.sound h₃.endsOnce' hdepth₃ hrequest
  obtain ⟨vs, hvs, h₅⟩ := reads_parseThrows.sound h₄.endsOnce' rfl herrors
  obtain ⟨ws, hws, h₆⟩ := reads_eat_oneWay.sound h₅.endsOnce' rfl hway
  obtain ⟨s, hs, h₇⟩ := (expect_eq_ok_iff h₆.endsOnce').1 hsemicolon
  have hbehind := h₁.trans (h₂.trans (h₃.trans (h₄.trans (h₅.trans (h₆.trans h₇)))))
  exact ⟨_, .message hts hn ho hus ht hvs hws hs, by simpa using hbehind⟩

theorem complete_parseMessage {m : Message} (hdepth : c.depth = 0)
    (hphrase : IsMessage .language ts m) (hbehind : Behind c ts c') :
    parseMessage c = .ok m c' := by
  have hparameters := reads_parseParameter.items .closeParen nofun nofun nofun
    startsWith_isParameter
  obtain ⟨hts, hn, ho, hus, ht, hvs, hws, hs⟩ := hphrase
  obtain ⟨c₁, h₁, hbehind⟩ := hbehind.split
  obtain ⟨c₂, h₂, hbehind⟩ := hbehind.split_cons
  obtain ⟨c₃, h₃, hbehind⟩ := hbehind.split_cons
  rw [← List.singleton_append, ← List.append_assoc] at hbehind
  obtain ⟨c₄, h₄, hbehind⟩ := hbehind.split
  obtain ⟨c₅, h₅, hbehind⟩ := hbehind.split
  -- the list of errors ends where the mark or the semicolon stands
  have hfollow := current_ne_of_isOneWay hws hs hbehind
  obtain ⟨c₆, h₆, h₇⟩ := hbehind.split
  have hhead := h₁.trans (h₂.trans h₃)
  rw [parseMessage, bind_of_ok (complete_parseResponse hdepth hts h₁),
    bind_of_ok ((expectWord_eq_ok_iff h₂.endsOnce).2 ⟨_, hn, h₂⟩),
    bind_of_ok ((expect_eq_ok_iff h₃.endsOnce).2 ⟨_, ho, h₃⟩),
    bind_of_ok (hparameters.complete (hhead.depth.trans hdepth) ⟨_, _, rfl, hus, ht⟩ h₄ trivial),
    bind_of_ok (reads_parseThrows.complete rfl hvs h₅ hfollow),
    bind_of_ok (reads_eat_oneWay.complete rfl hws h₆ (by simp [h₇.current_eq, hs])),
    bind_of_ok ((expect_eq_ok_iff h₇.endsOnce).2 ⟨_, hs, h₇⟩)]
  rfl

/-! ## Types -/

theorem startsWith_isFields {rules : Rules} :
    StartsWith (IsFields rules) (· ≠ .mark .closeBrace) := by
  rintro _ _ ⟨hts, -, hus, -, -⟩
  obtain ⟨t, vs, heq, -, hclose⟩ := exists_head_of_notes hts (startsWith_isType _ _ _ hus)
  rw [← List.append_assoc, heq]
  exact ⟨t, _, rfl, hclose⟩

theorem parseSize_eq_ok_iff {size : UInt64} (hends : EndsOnce c.tokens) :
    parseSize c = .ok size c' ↔ ∃ t literal, t.kind = .numberLiteral literal
      ∧ sizeOf? literal = some size ∧ Behind c [t] c' := by
  rw [parseSize, current_bind]
  constructor
  · intro hstep
    generalize hkind : c.current.kind = kind at hstep
    split at hstep
    · generalize hsize : sizeOf? _ = size? at hstep
      cases size? with
      | none => exact absurd hstep fail_ne_ok
      | some size' =>
        obtain ⟨c₁, hfirst, hstep⟩ := exists_behind_of_advance hends (by simp [hkind]) hstep
        obtain ⟨rfl, rfl⟩ := pure_eq_ok_iff.1 hstep
        exact ⟨_, _, hkind, hsize, hfirst⟩
    · exact absurd hstep missing_ne_ok
  · rintro ⟨t, literal, ht, hsize, hbehind⟩
    rw [hbehind.current_eq, ht]
    simp only [hsize]
    rw [bind_of_ok (advance_of_behind hbehind)]
    rfl

variable {doc : Option String} {annotations : List Annotation} {t : NamedType}

/-- A named type that a step reads after a keyword: its body is a phrase, and its head says
what its annotations say. -/
def ReadsType (step : Parse NamedType) (doc : Option String) (annotations : List Annotation)
    (keyword : String) : Prop :=
  ∀ {c c' t}, EndsOnce c.tokens → c.depth = 0 →
    (step c = .ok t c' ↔
      (∃ ts, IsBody .language keyword ts (t.name, t.body) ∧ Behind c ts c') ∧
        applyTypeAnnotations annotations = .ok (t.space, t.properties) ∧ t.doc = doc)

theorem readsType_parseRecord (isError : Bool) :
    ReadsType (parseRecord doc annotations isError) doc annotations
      (if isError then "error" else "record") := by
  have hfields := reads_parseFields.untilSeeing startsWith_isFields
  intro c c' t hends hdepth
  constructor
  · intro hstep
    obtain ⟨name, c₁, hname, hstep⟩ := bind_eq_ok_iff.1 hstep
    obtain ⟨⟨space, properties⟩, c₂, hmeans, hstep⟩ := bind_eq_ok_iff.1 hstep
    obtain ⟨_, c₃, hopen, hstep⟩ := bind_eq_ok_iff.1 hstep
    obtain ⟨fields, c₄, hmembers, hstep⟩ := bind_eq_ok_iff.1 hstep
    obtain ⟨_, c₅, hclose, hstep⟩ := bind_eq_ok_iff.1 hstep
    obtain ⟨rfl, rfl⟩ := pure_eq_ok_iff.1 hstep
    obtain ⟨happly, rfl⟩ := ofReading_eq_ok_iff.1 hmeans
    obtain ⟨n, hn, h₁⟩ := (expectWord_eq_ok_iff hends).1 hname
    obtain ⟨o, ho, h₂⟩ := (expect_eq_ok_iff h₁.endsOnce').1 hopen
    have hhead := h₁.trans h₂
    obtain ⟨ts, hts, h₃⟩ := hfields.sound h₂.endsOnce' (hhead.depth.trans hdepth) hmembers
    obtain ⟨b, hb, h₄⟩ := (expect_eq_ok_iff h₃.endsOnce').1 hclose
    exact ⟨⟨_, .record hn ho hts hb, h₁.trans (h₂.trans (h₃.trans h₄))⟩, happly, rfl⟩
  · obtain ⟨⟨name, space, own, properties⟩, body⟩ := t
    rintro ⟨⟨ts, hbody, hbehind⟩, happly, rfl⟩
    -- the keyword tells the form of the body
    generalize hkeyword : (if isError then "error" else "record") = keyword at hbody
    cases hbody with
    | enum => cases isError <;> simp at hkeyword
    | fixed => cases isError <;> simp at hkeyword
    | @record _ _ _ _ _ _ isError' hn ho hts hb =>
      obtain rfl : isError = isError' := by cases isError <;> cases isError' <;> simp_all
      obtain ⟨c₁, h₁, hbehind⟩ := hbehind.split_cons
      obtain ⟨c₂, h₂, hbehind⟩ := hbehind.split_cons
      obtain ⟨c₃, h₃, h₄⟩ := hbehind.split
      have hhead := h₁.trans h₂
      rw [parseRecord, bind_of_ok ((expectWord_eq_ok_iff hends).2 ⟨_, hn, h₁⟩),
        bind_of_ok (ofReading_eq_ok_iff.2 ⟨happly, rfl⟩)]
      dsimp only
      rw [bind_of_ok ((expect_eq_ok_iff h₂.endsOnce).2 ⟨_, ho, h₂⟩),
        bind_of_ok (hfields.complete (hhead.depth.trans hdepth) hts h₃ (h₄.current_eq ▸ hb)),
        bind_of_ok ((expect_eq_ok_iff h₄.endsOnce).2 ⟨_, hb, h₄⟩)]
      rfl

theorem readsType_parseEnum : ReadsType (parseEnum doc annotations) doc annotations "enum" := by
  have hsymbol : Reads 0 (expectWord "enum symbol") IsWord fun _ => True := .expectWord _
  have hsymbols := hsymbol.items .closeBrace trivial trivial nofun fun ts text hword => by
      obtain ⟨hkind⟩ := hword
      exact ⟨_, _, rfl, by simp [hkind]⟩
  intro c c' t hends hdepth
  constructor
  · intro hstep
    obtain ⟨name, c₁, hname, hstep⟩ := bind_eq_ok_iff.1 hstep
    obtain ⟨_, c₂, hopen, hstep⟩ := bind_eq_ok_iff.1 hstep
    obtain ⟨symbols, c₃, hmembers, hstep⟩ := bind_eq_ok_iff.1 hstep
    obtain ⟨⟨space, properties⟩, c₄, hmeans, hstep⟩ := bind_eq_ok_iff.1 hstep
    obtain ⟨rfl, rfl⟩ := pure_eq_ok_iff.1 hstep
    obtain ⟨happly, rfl⟩ := ofReading_eq_ok_iff.1 hmeans
    obtain ⟨n, hn, h₁⟩ := (expectWord_eq_ok_iff hends).1 hname
    obtain ⟨o, ho, h₂⟩ := (expect_eq_ok_iff h₁.endsOnce').1 hopen
    have hhead := h₁.trans h₂
    obtain ⟨_, ⟨ts, b, rfl, hts, hb⟩, h₃⟩ :=
      hsymbols.sound h₂.endsOnce' (hhead.depth.trans hdepth) hmembers
    exact ⟨⟨_, .enum hn ho hts hb, h₁.trans (h₂.trans h₃)⟩, happly, rfl⟩
  · obtain ⟨⟨name, space, own, properties⟩, body⟩ := t
    rintro ⟨⟨ts, hbody, hbehind⟩, happly, rfl⟩
    generalize hkeyword : "enum" = keyword at hbody
    cases hbody with
    | fixed => simp at hkeyword
    | @record _ _ _ _ _ _ isError => cases isError <;> simp at hkeyword
    | enum hn ho hts hb =>
      obtain ⟨c₁, h₁, hbehind⟩ := hbehind.split_cons
      obtain ⟨c₂, h₂, h₃⟩ := hbehind.split_cons
      have hhead := h₁.trans h₂
      rw [parseEnum, bind_of_ok ((expectWord_eq_ok_iff hends).2 ⟨_, hn, h₁⟩),
        bind_of_ok ((expect_eq_ok_iff h₂.endsOnce).2 ⟨_, ho, h₂⟩),
        bind_of_ok (hsymbols.complete (hhead.depth.trans hdepth) ⟨_, _, rfl, hts, hb⟩ h₃ trivial),
        bind_of_ok (ofReading_eq_ok_iff.2 ⟨happly, rfl⟩)]
      rfl

theorem readsType_parseFixed : ReadsType (parseFixed doc annotations) doc annotations "fixed" := by
  intro c c' t hends hdepth
  constructor
  · intro hstep
    obtain ⟨name, c₁, hname, hstep⟩ := bind_eq_ok_iff.1 hstep
    obtain ⟨_, c₂, hopen, hstep⟩ := bind_eq_ok_iff.1 hstep
    obtain ⟨size, c₃, hsize, hstep⟩ := bind_eq_ok_iff.1 hstep
    obtain ⟨_, c₄, hclose, hstep⟩ := bind_eq_ok_iff.1 hstep
    obtain ⟨_, c₅, hsemicolon, hstep⟩ := bind_eq_ok_iff.1 hstep
    obtain ⟨⟨space, properties⟩, c₆, hmeans, hstep⟩ := bind_eq_ok_iff.1 hstep
    obtain ⟨rfl, rfl⟩ := pure_eq_ok_iff.1 hstep
    obtain ⟨happly, rfl⟩ := ofReading_eq_ok_iff.1 hmeans
    obtain ⟨n, hn, h₁⟩ := (expectWord_eq_ok_iff hends).1 hname
    obtain ⟨o, ho, h₂⟩ := (expect_eq_ok_iff h₁.endsOnce').1 hopen
    obtain ⟨s, literal, hs, hvalue, h₃⟩ := (parseSize_eq_ok_iff h₂.endsOnce').1 hsize
    obtain ⟨b, hb, h₄⟩ := (expect_eq_ok_iff h₃.endsOnce').1 hclose
    obtain ⟨e, he, h₅⟩ := (expect_eq_ok_iff h₄.endsOnce').1 hsemicolon
    exact ⟨⟨_, .fixed hn ho hs hvalue hb he, h₁.trans (h₂.trans (h₃.trans (h₄.trans h₅)))⟩,
      happly, rfl⟩
  · obtain ⟨⟨name, space, own, properties⟩, body⟩ := t
    rintro ⟨⟨ts, hbody, hbehind⟩, happly, rfl⟩
    generalize hkeyword : "fixed" = keyword at hbody
    cases hbody with
    | enum => simp at hkeyword
    | @record _ _ _ _ _ _ isError => cases isError <;> simp at hkeyword
    | fixed hn ho hs hvalue hb he =>
      obtain ⟨c₁, h₁, hbehind⟩ := hbehind.split_cons
      obtain ⟨c₂, h₂, hbehind⟩ := hbehind.split_cons
      obtain ⟨c₃, h₃, hbehind⟩ := hbehind.split_cons
      obtain ⟨c₄, h₄, h₅⟩ := hbehind.split_cons
      rw [parseFixed, bind_of_ok ((expectWord_eq_ok_iff hends).2 ⟨_, hn, h₁⟩),
        bind_of_ok ((expect_eq_ok_iff h₂.endsOnce).2 ⟨_, ho, h₂⟩),
        bind_of_ok ((parseSize_eq_ok_iff h₃.endsOnce).2 ⟨_, _, hs, hvalue, h₃⟩),
        bind_of_ok ((expect_eq_ok_iff h₄.endsOnce).2 ⟨_, hb, h₄⟩),
        bind_of_ok ((expect_eq_ok_iff h₅.endsOnce).2 ⟨_, he, h₅⟩),
        bind_of_ok (ofReading_eq_ok_iff.2 ⟨happly, rfl⟩)]
      rfl

/-! ## Declarations -/

/-- The documentation of a phrase that starts with annotations and a token. -/
theorem docOf_notes_token {m : Cursor} {k : Token} (hfirst : Behind c ts m)
    (hsecond : Behind m [k] c') : docOf (ts ++ [k]) = c.current.doc :=
  docOf_eq (hfirst.trans hsecond) (by simp)

/-- The head of a named type that a step reads is the one that the grammar gives it. -/
theorem eq_of_applyTypeAnnotations (happly : applyTypeAnnotations annotations =
    .ok (t.space, t.properties)) (hdoc : t.doc = doc) : t = {
      name := t.name
      space := spaceOf annotations
      doc
      properties := propertiesOf annotations
      body := t.body } := by
  obtain ⟨-, hspace, hproperties⟩ := applyTypeAnnotations_eq_ok_iff.1 happly
  rw [← hspace, ← hproperties, ← hdoc]

/-- Reading a named type at its keyword, behind its annotations. -/
theorem sound_typeAtKeyword {m : Cursor} {step : Parse NamedType} {keyword : String}
    {d : Declaration} (hreads : ReadsType step c.current.doc annotations keyword)
    (hts : Repeated IsNote ts annotations) (hnamed : ∀ a ∈ annotations, a.IsNamed)
    (hfirst : Behind c ts m) (hdepth : c.depth = 0) (hkind : m.current.kind = .word keyword)
    (hstep : (do advance; Declaration.type <$> step : Parse Declaration) m = .ok d c') :
    ∃ ts, IsDeclaration .language ts d ∧ Behind c ts c' := by
  obtain ⟨m', hsecond, hstep⟩ :=
    exists_behind_of_advance hfirst.endsOnce' (by simp [hkind]) hstep
  obtain ⟨t, ht, rfl⟩ := map_eq_ok_iff.1 hstep
  have hhead := hfirst.trans hsecond
  obtain ⟨⟨us, hbody, hrest⟩, happly, hdoc⟩ :=
    (hreads hsecond.endsOnce' (hhead.depth.trans hdepth)).1 ht
  rw [eq_of_applyTypeAnnotations happly hdoc, ← docOf_notes_token hfirst hsecond]
  have hallowed := allowsOnType_iff.2 ⟨hnamed, (applyTypeAnnotations_eq_ok_iff.1 happly).1⟩
  exact ⟨_, .type hts hallowed hkind hbody, hfirst.trans (hsecond.trans hrest)⟩

theorem complete_typeAtKeyword {m m' : Cursor} {step : Parse NamedType} {keyword name : String}
    {body : TypeBody} {k : Token} (hreads : ReadsType step doc annotations keyword)
    (hallowed : Rules.language.AllowsOnType annotations) (hsecond : Behind m [k] m')
    (hdepth : m.depth = 0) (hbody : IsBody .language keyword us (name, body))
    (hrest : Behind m' us c') :
    (do advance; Declaration.type <$> step : Parse Declaration) m = .ok (.type {
      name
      space := spaceOf annotations
      doc
      properties := propertiesOf annotations
      body }) c' := by
  have happly := applyTypeAnnotations_eq_ok_iff.2 ⟨(allowsOnType_iff.1 hallowed).2, rfl, rfl⟩
  rw [bind_of_ok (advance_of_behind hsecond)]
  exact map_eq_ok_iff.2 ⟨_, (hreads hsecond.endsOnce' (hsecond.depth.trans hdepth)).2
    ⟨⟨us, hbody, hrest⟩, happly, rfl⟩, rfl⟩

/-- A message starts with a word. -/
theorem startsWith_isMessage {rules : Rules} : StartsWith (IsMessage rules) fun kind =>
    ∃ word, kind = .word word ∧ (word = "void" ∨ rules.mayStart word) := by
  rintro _ _ ⟨hts, -, -, -, -, -, -, -⟩
  cases hts with
  | void ht => exact ⟨_, _, rfl, _, ht, .inl rfl⟩
  | type hts hstart =>
    obtain ⟨t, us, rfl, word, ht⟩ := startsWith_isType _ _ _ hts
    exact ⟨t, _, rfl, word, ht, .inr (hstart t (by simp) word ht)⟩

theorem startsWith_isDeclaration {rules : Rules} :
    StartsWith (IsDeclaration rules) (· ≠ .mark .closeBrace) := by
  rintro _ _ (⟨hts, -, hk, -⟩ | ⟨hts, -, hmessage⟩)
  · obtain ⟨t, vs, heq, -, hclose⟩ := exists_head_of_notes hts ⟨_, _, rfl, _, hk⟩
    exact ⟨t, vs, heq, hclose⟩
  · obtain ⟨u, us, rfl, word, hu, -⟩ := startsWith_isMessage _ _ hmessage
    obtain ⟨t, vs, heq, -, hclose⟩ := exists_head_of_notes hts ⟨u, us, rfl, word, hu⟩
    exact ⟨t, vs, heq, hclose⟩

/-- What is read as a declaration is a declaration. -/
theorem sound_parseDeclaration {d : Declaration} (hends : EndsOnce c.tokens)
    (hdepth : c.depth = 0) (hstep : parseDeclaration c = .ok d c') :
    ∃ ts, IsDeclaration .language ts d ∧ Behind c ts c' := by
  rw [parseDeclaration, current_bind] at hstep
  obtain ⟨annotations, c₁, hnotes, hstep⟩ := bind_eq_ok_iff.1 hstep
  obtain ⟨ts, ⟨hts, hnamed⟩, hfirst⟩ := reads_parseAnnotations.sound hends hdepth hnotes
  rw [current_bind] at hstep
  generalize hkind : c₁.current.kind = kind at hstep
  split at hstep
  · exact sound_typeAtKeyword (readsType_parseRecord false) hts hnamed hfirst hdepth hkind hstep
  · exact sound_typeAtKeyword (readsType_parseRecord true) hts hnamed hfirst hdepth hkind hstep
  · exact sound_typeAtKeyword readsType_parseEnum hts hnamed hfirst hdepth hkind hstep
  · exact sound_typeAtKeyword readsType_parseFixed hts hnamed hfirst hdepth hkind hstep
  · -- any other word starts a message
    rename_i word hrecord herror henum hfixed
    obtain ⟨m, c₂, hmessage, hstep⟩ := bind_eq_ok_iff.1 hstep
    obtain ⟨properties, c₃, hmeans, hstep⟩ := bind_eq_ok_iff.1 hstep
    obtain ⟨rfl, rfl⟩ := pure_eq_ok_iff.1 hstep
    obtain ⟨happly, rfl⟩ := ofReading_eq_ok_iff.1 hmeans
    obtain ⟨hmember, rfl⟩ := applyMemberAnnotations_eq_ok_iff.1 happly
    obtain ⟨us, hus, hrest⟩ := sound_parseMessage hfirst.endsOnce' (hfirst.depth.trans hdepth)
      (by simp_all [Rules.language]) hmessage
    have hne : us ≠ [] := by
      obtain ⟨t, vs, rfl, -⟩ := startsWith_isMessage _ _ hus
      simp
    rw [← docOf_eq (hfirst.trans hrest) (by simp [hne])]
    exact ⟨_, .message hts (allowsOnMember_iff.2 ⟨hnamed, hmember⟩) hus, hfirst.trans hrest⟩
  · exact absurd hstep missing_ne_ok

/-- Every declaration of a type is read. -/
theorem complete_parseDeclaration_type {k : Token} {keyword name : String} {body : TypeBody}
    (hdepth : c.depth = 0) (hts : Repeated IsNote ts annotations)
    (hallowed : Rules.language.AllowsOnType annotations) (hk : k.kind = .word keyword)
    (hbody : IsBody .language keyword us (name, body)) (hbehind : Behind c (ts ++ k :: us) c') :
    parseDeclaration c = .ok (.type {
      name
      space := spaceOf annotations
      doc := docOf (ts ++ [k])
      properties := propertiesOf annotations
      body }) c' := by
  obtain ⟨c₁, hfirst, hbehind⟩ := hbehind.split
  obtain ⟨c₂, hsecond, hrest⟩ := hbehind.split_cons
  rw [parseDeclaration, current_bind, bind_of_ok (reads_parseAnnotations.complete hdepth
    ⟨hts, (allowsOnType_iff.1 hallowed).1⟩ hfirst (by simp [hsecond.current_eq, hk])),
    current_bind, hsecond.current_eq, hk, docOf_notes_token hfirst hsecond]
  have hdepth₁ := hfirst.depth.trans hdepth
  cases hbody with
  | @record _ _ _ _ _ _ isError hn ho hmembers hb =>
    have hbody : IsBody .language (if isError then "error" else "record") _ (name, _) :=
      .record hn ho hmembers hb
    cases isError with
    | false =>
      exact complete_typeAtKeyword (readsType_parseRecord false) hallowed hsecond hdepth₁ hbody
        hrest
    | true =>
      exact complete_typeAtKeyword (readsType_parseRecord true) hallowed hsecond hdepth₁ hbody
        hrest
  | enum hn ho hmembers hb =>
    exact complete_typeAtKeyword readsType_parseEnum hallowed hsecond hdepth₁
      (.enum hn ho hmembers hb) hrest
  | fixed hn ho hs hvalue hb he =>
    exact complete_typeAtKeyword readsType_parseFixed hallowed hsecond hdepth₁
      (.fixed hn ho hs hvalue hb he) hrest

/-- Every declaration of a message is read. -/
theorem complete_parseDeclaration_message {m : Message} (hdepth : c.depth = 0)
    (hts : Repeated IsNote ts annotations)
    (hallowed : Rules.language.AllowsOnMember annotations) (hmessage : IsMessage .language us m)
    (hbehind : Behind c (ts ++ us) c') :
    parseDeclaration c = .ok (.message { m with
      doc := docOf (ts ++ us)
      properties := propertiesOf annotations }) c' := by
  obtain ⟨hnamed, hmember⟩ := allowsOnMember_iff.1 hallowed
  obtain ⟨c₁, hfirst, hrest⟩ := hbehind.split
  obtain ⟨t, vs, rfl, word, hword, hstart⟩ := startsWith_isMessage _ _ hmessage
  have hkind : c₁.current.kind = .word word := hrest.current_eq ▸ hword
  rw [parseDeclaration, current_bind, bind_of_ok (reads_parseAnnotations.complete hdepth
    ⟨hts, hnamed⟩ hfirst (by simp [hkind])), current_bind,
    docOf_eq (hfirst.trans hrest) (by simp)]
  -- by the rule for messages none of the first four branches is taken
  have hfree : word ∉ ["record", "error", "enum", "fixed"] := by
    rcases hstart with rfl | hstart
    · decide
    · exact hstart
  simp only [List.mem_cons, List.not_mem_nil, or_false, not_or] at hfree
  generalize c₁.current.kind = kind at hkind
  split
  · simp_all
  · simp_all
  · simp_all
  · simp_all
  · rw [bind_of_ok (complete_parseMessage (hfirst.depth.trans hdepth) hmessage hrest),
      bind_of_ok (ofReading_eq_ok_iff.2
        ⟨applyMemberAnnotations_eq_ok_iff.2 ⟨hmember, rfl⟩, rfl⟩)]
    rfl
  · rename_i hother
    exact absurd hkind (hother _)

theorem reads_parseDeclaration :
    Reads 0 parseDeclaration (IsDeclaration .language) fun _ => True := by
  constructor
  · intro c d c' hends hdepth hstep
    exact sound_parseDeclaration hends hdepth hstep
  · intro c _ d c' hdepth hphrase hbehind _
    cases hphrase with
    | type hts hallowed hk hbody =>
      exact complete_parseDeclaration_type hdepth hts hallowed hk hbody hbehind
    | message hts hallowed hmessage =>
      exact complete_parseDeclaration_message hdepth hts hallowed hmessage hbehind

end IdlCompiler.Idl
