/-
# Members of generated definitions

The members of a struct, the parameters of a method and the methods of the trait get their names
from fields, parameters and messages of the protocol, which differ as they are written.  Generated
code spells them with small letters, puts underscores between their words and escapes the words of
the language, so that names may come out as one: `fooBar` and `foo_bar`, `Foo` and `foo`, `self` and
`self_`.

Main statements: two names get one identifier exactly if they clash
(`Target.Name.fieldIdent_eq_iff`); the members of all definitions differ exactly if no names in one
place clash (`Target.hasDistinctMembers_iff`); and names that keep to one style never clash, be it
words with underscores between them or words with capitals in front
(`Protocol.WellFormed.keepsMembersApart_of_style`).
-/
import IdlCompiler.Proofs.Spelling

namespace IdlCompiler.Target.Name

variable {a b name : String} {cs ds : List Char} {after : Bool}

/-! ## Names that get one identifier -/

/-- Two names are the same in small letters with underscores between the words, or one of them is a
word without a raw form there, and the other one is the word with an underscore behind it. -/
def Clash (a b : String) : Prop :=
  snakeCase a = snakeCase b ∨ ∃ word ∈ pathWords,
    (snakeCase a = word ∧ snakeCase b = word ++ "_") ∨
      (snakeCase a = word ++ "_" ∧ snakeCase b = word)

instance (a b : String) : Decidable (Clash a b) :=
  inferInstanceAs (Decidable (_ ∨ ∃ word ∈ pathWords, _))

/-- How a name is escaped: with an underscore, as a raw name, or not at all. -/
theorem fieldIdent_cases (name : String) :
    (snakeCase name ∈ pathWords ∧ fieldIdent name = snakeCase name ++ "_") ∨
      (snakeCase name ∈ keywords ∧ fieldIdent name = "r#" ++ snakeCase name) ∨
      fieldIdent name = snakeCase name := by
  rw [fieldIdent]
  by_cases hpath : snakeCase name ∈ pathWords
  · exact .inl ⟨hpath, if_pos (by simpa using hpath)⟩
  rw [if_neg (by simpa using hpath)]
  by_cases hkeyword : snakeCase name ∈ keywords
  · exact .inr (.inl ⟨hkeyword, if_pos (by simpa using hkeyword)⟩)
  · exact .inr (.inr (if_neg (by simpa using hkeyword)))

/-- The mark of raw names is in no identifier. -/
theorem sharp_notMem_snakeCase (h : IdlCompiler.Name.isIdentifier name) :
    '#' ∉ (snakeCase name).toList := by
  intro hmem
  rw [snakeCase, String.toList_ofList] at hmem
  exact absurd (isPart_of_mem_snakeChars (forall_isPart_of_isIdentifier h) _ hmem) (by decide)

/-- **When two names get one identifier.** -/
theorem fieldIdent_eq_iff (ha : IdlCompiler.Name.isIdentifier a)
    (hb : IdlCompiler.Name.isIdentifier b) : fieldIdent a = fieldIdent b ↔ Clash a b := by
  have hraw : ∀ {x y : String}, '#' ∉ y.toList → "r#" ++ x ≠ y := by
    rintro x _ hsharp rfl
    exact hsharp (by simp [String.toList_append])
  have hescaped : ∀ {x : String}, '#' ∉ x.toList → '#' ∉ (x ++ "_").toList := by
    intro x hx
    simpa [String.toList_append] using hx
  have hsharpA := sharp_notMem_snakeCase ha
  have hsharpB := sharp_notMem_snakeCase hb
  constructor
  · intro h
    obtain ⟨hpathA, identA⟩ | ⟨-, identA⟩ | identA := fieldIdent_cases a <;>
      obtain ⟨hpathB, identB⟩ | ⟨-, identB⟩ | identB := fieldIdent_cases b <;>
      rw [identA, identB] at h
    · exact .inl ((String.append_left_inj "_").1 h)
    · exact absurd h.symm (hraw (hescaped hsharpA))
    · exact .inr ⟨_, hpathA, .inl ⟨rfl, h.symm⟩⟩
    · exact absurd h (hraw (hescaped hsharpB))
    · exact .inl ((String.append_right_inj "r#").1 h)
    · exact absurd h (hraw hsharpB)
    · exact .inr ⟨_, hpathB, .inr ⟨h, rfl⟩⟩
    · exact absurd h.symm (hraw hsharpA)
    · exact .inl h
  · -- a word with an underscore behind it is no word itself, so it stays as it is
    have hwords : ∀ word ∈ pathWords, word ++ "_" ∉ pathWords ∧ word ++ "_" ∉ keywords := by decide
    have hescape : ∀ {x y word : String}, word ∈ pathWords → snakeCase x = word →
        snakeCase y = word ++ "_" → fieldIdent x = fieldIdent y := by
      intro x y word hword hx hy
      obtain ⟨hpath, hkeyword⟩ := hwords word hword
      simp only [fieldIdent, hx, hy, List.contains_eq_mem, decide_eq_true_eq, if_pos hword,
        if_neg hpath, if_neg hkeyword]
    rintro (h | ⟨word, hword, ⟨hx, hy⟩ | ⟨hx, hy⟩⟩)
    · rw [fieldIdent, fieldIdent, h]
    · exact hescape hword hx hy
    · exact (hescape hword hy hx).symm

/-- The identifiers of names differ if no two of the names clash. -/
theorem nodup_map_fieldIdent_iff {α : Type} {key : α → String} {as : List α}
    (h : ∀ x ∈ as, IdlCompiler.Name.isIdentifier (key x)) :
    (as.map fun x => fieldIdent (key x)).Nodup ↔
      as.Pairwise fun x y => ¬ Clash (key x) (key y) := by
  rw [List.Nodup, List.pairwise_map]
  exact List.Pairwise.iff_of_mem fun hx hy => not_congr (fieldIdent_eq_iff (h _ hx) (h _ hy))

/-! ## Styles in which names do not clash -/

/-- Names for which a predicate holds do not clash unless they are the same. -/
def IsStyle (P : String → Prop) : Prop := ∀ a b, P a → P b → Clash a b → a = b

/-- A name without capitals that is no escaped word. -/
structure IsSmall (name : String) : Prop where
  small : ∀ c ∈ name.toList, Text.isUpperCase c = false
  notMem : ∀ word ∈ pathWords, name ≠ word ++ "_"

theorem snakeChars_of_small (h : ∀ c ∈ cs, Text.isUpperCase c = false) :
    snakeChars after cs = cs := by
  induction cs generalizing after with
  | nil => rfl
  | cons c cs ih =>
    obtain ⟨hc, hcs⟩ := List.forall_mem_cons.1 h
    simp [snakeChars, hc, ih hcs]

theorem isStyle_isSmall : IsStyle IsSmall := by
  have hsnake : ∀ {name}, IsSmall name → snakeCase name = name := by
    intro name h
    rw [snakeCase, snakeChars_of_small h.small, String.ofList_toList]
  intro a b ha hb h
  rw [Clash, hsnake ha, hsnake hb] at h
  obtain h | ⟨word, hword, ⟨-, hescaped⟩ | ⟨hescaped, -⟩⟩ := h
  · exact h
  · exact absurd hescaped (hb.notMem word hword)
  · exact absurd hescaped (ha.notMem word hword)

/-- No underscores, and each capital behind a small letter or a digit; `after` tells whether such a
character stands in front. -/
def hasHumps (after : Bool) : List Char → Bool
  | [] => true
  | c :: cs =>
    if Text.isUpperCase c then after && hasHumps false cs
    else c ≠ '_' && hasHumps (c.isLower || c.isDigit) cs

/-- A name whose words have capitals in front, apart from the first one. -/
def IsCamel (name : String) : Prop := hasHumps false name.toList

/-- A capital tells its small letter. -/
theorem eq_of_toLower_eq {c d : Char} (hc : Text.isUpperCase c) (hd : Text.isUpperCase d)
    (hpart : IdlCompiler.Name.isPart c) (hpart' : IdlCompiler.Name.isPart d)
    (h : c.toLower = d.toLower) : c = d := by
  have hback : ∀ {c : Char}, IdlCompiler.Name.isPart c → Text.isUpperCase c →
      c.toLower.toUpper = c := fun hc => Name.forall_isPart
    (P := fun c => Text.isUpperCase c → c.toLower.toUpper = c) (by decide +kernel) hc
  rw [← hback hpart hc, ← hback hpart' hd, h]

theorem snakeChars_cons_ne_nil (after : Bool) (c : Char) (cs : List Char) :
    snakeChars after (c :: cs) ≠ [] := by
  rw [snakeChars]
  split
  · split <;> simp
  · simp

/-- The underscores tell where the capitals are. -/
theorem eq_of_snakeChars_eq (hcs : ∀ c ∈ cs, IdlCompiler.Name.isPart c)
    (hds : ∀ d ∈ ds, IdlCompiler.Name.isPart d) (humps : hasHumps after cs)
    (humps' : hasHumps after ds) (h : snakeChars after cs = snakeChars after ds) : cs = ds := by
  induction cs generalizing ds after with
  | nil =>
    cases ds with
    | nil => rfl
    | cons d ds => exact absurd h.symm (snakeChars_cons_ne_nil after d ds)
  | cons c cs ih =>
    cases ds with
    | nil => exact absurd h (snakeChars_cons_ne_nil after c cs)
    | cons d ds =>
      obtain ⟨hc, htail⟩ := List.forall_mem_cons.1 hcs
      obtain ⟨hd, htail'⟩ := List.forall_mem_cons.1 hds
      rw [snakeChars, snakeChars] at h
      rw [hasHumps] at humps humps'
      by_cases hupper : Text.isUpperCase c <;> by_cases hupper' : Text.isUpperCase d <;>
        simp only [hupper, hupper', if_true, if_false, Bool.and_eq_true, decide_eq_true_eq,
          Bool.false_eq_true] at h humps humps'
      · simp only [humps.1, if_true, List.cons.injEq, true_and] at h
        rw [eq_of_toLower_eq hupper hupper' hc hd h.1, ih htail htail' humps.2 humps'.2 h.2]
      · -- an underscore against a character that is none
        simp only [humps.1, if_true, List.cons.injEq] at h
        exact absurd h.1.symm humps'.1
      · simp only [humps'.1, if_true, List.cons.injEq] at h
        exact absurd h.1 humps.1
      · obtain ⟨rfl, h⟩ := List.cons.inj h
        rw [ih htail htail' humps.2 humps'.2 h]

/-- An underscore is put in front of a letter, so it is never the last character. -/
theorem ne_underscore_of_mem_getLast? (hcs : ∀ c ∈ cs, IdlCompiler.Name.isPart c)
    (humps : hasHumps after cs) : ∀ c ∈ (snakeChars after cs).getLast?, c ≠ '_' := by
  induction cs generalizing after with
  | nil => simp [snakeChars]
  | cons c cs ih =>
    obtain ⟨hc, hcs⟩ := List.forall_mem_cons.1 hcs
    rw [hasHumps] at humps
    rw [snakeChars]
    -- the last character of what follows, or the one in front of it
    have hlast : ∀ {x : Char} {xs : List Char}, x ≠ '_' → (∀ d ∈ xs.getLast?, d ≠ '_') →
        ∀ d ∈ (x :: xs).getLast?, d ≠ '_' := by
      intro x xs hx hxs d hd
      rw [List.getLast?_cons, Option.mem_some_iff] at hd
      obtain rfl := hd
      cases hend : xs.getLast? with
      | none => exact hx
      | some e => exact hxs e hend
    by_cases hupper : Text.isUpperCase c
    · simp only [hupper, if_true, Bool.and_eq_true] at humps ⊢
      have hletter : c.toLower ≠ '_' := by
        intro heq
        exact absurd (isLower_toLower_of_isUpperCase hc hupper) (by rw [heq]; decide)
      simpa [humps.1, List.getLast?_cons_cons] using hlast hletter (ih hcs humps.2)
    · simp only [hupper, if_false, Bool.false_eq_true, Bool.and_eq_true, decide_eq_true_eq]
        at humps ⊢
      exact hlast humps.1 (ih hcs humps.2)

/-- Words with capitals in front do not clash. -/
theorem isStyle_isCamel :
    IsStyle fun name => IdlCompiler.Name.isIdentifier name ∧ IsCamel name := by
  rintro a b ⟨ha, humps⟩ ⟨hb, humps'⟩ h
  have hescaped : ∀ {name word : String}, IdlCompiler.Name.isIdentifier name → IsCamel name →
      snakeCase name ≠ word ++ "_" := by
    intro name word hname humps heq
    have hlast := ne_underscore_of_mem_getLast? (forall_isPart_of_isIdentifier hname) humps '_'
    rw [← String.toList_ofList (l := snakeChars false name.toList), ← snakeCase, heq] at hlast
    simp [String.toList_append] at hlast
  obtain h | ⟨word, -, ⟨-, h⟩ | ⟨h, -⟩⟩ := h
  · refine String.toList_inj.1 (eq_of_snakeChars_eq (forall_isPart_of_isIdentifier ha)
      (forall_isPart_of_isIdentifier hb) humps humps' ?_)
    simpa [snakeCase] using congrArg String.toList h
  · exact absurd h (hescaped hb humps')
  · exact absurd h (hescaped ha humps)

end IdlCompiler.Target.Name

namespace IdlCompiler

open Target.Name

/-! ## Names that keep members apart -/

namespace Protocol

/-- No names in one place of the protocol clash. -/
structure KeepsMembersApart (p : Protocol) : Prop where
  /-- Neither do the fields of a record, nor the parameters of a message. -/
  members : ∀ fields ∈ p.fieldLists, fields.Pairwise fun f g => ¬ Clash f.name g.name
  messages : p.messages.Pairwise fun m n => ¬ Clash m.name n.name

variable {p : Protocol}

/-- Different names of one style are enough. -/
theorem WellFormed.keepsMembersApart_of_style (hp : p.WellFormed) {P : String → Prop}
    (hstyle : IsStyle P) (hmembers : ∀ fields ∈ p.fieldLists, ∀ f ∈ fields, P f.name)
    (hmessages : ∀ m ∈ p.messages, P m.name) : p.KeepsMembersApart := by
  have happart : ∀ {α : Type} {key : α → String} {as : List α}, (∀ x ∈ as, P (key x)) →
      (as.map key).Nodup → as.Pairwise fun x y => ¬ Clash (key x) (key y) := by
    intro α key as hkeys hnodup
    refine (List.pairwise_map.1 hnodup).imp_of_mem fun hx hy hne hclash => hne ?_
    exact hstyle _ _ (hkeys _ hx) (hkeys _ hy) hclash
  exact ⟨fun fields hfields => happart (hmembers fields hfields) (hp.allowsFields hfields).nodup,
    happart hmessages hp.nodup_messages⟩

end Protocol

namespace Target

/-- The members of each definition of a module have different identifiers. -/
structure Module.HasDistinctMembers (m : Module) : Prop where
  structs : ∀ d, DataDef.struct d ∈ m.data → (d.members.map MemberDef.ident).Nodup
  parameters : ∀ s ∈ m.service, ∀ f ∈ s.methods, (f.parameters.map MemberDef.ident).Nodup
  methods : ∀ s ∈ m.service, (s.methods.map MethodDef.ident).Nodup

variable {p : Protocol}

/-- The structs are the records, with the identifiers of the fields for members. -/
theorem forall_struct_iff {P : List String → Prop} :
    (∀ d, DataDef.struct d ∈ (Module.ofResolved (.ofProtocol p)).data →
      P (d.members.map MemberDef.ident)) ↔
    ∀ t ∈ p.types, ∀ isError fields, t.body = .record isError fields →
      P (fields.map fun f => fieldIdent f.name) := by
  have hdata : ∀ {t : NamedType} {isError : Bool} {fields : List Field},
      t.body = .record isError fields → ∃ d us, dataOf? (.ofProtocol p) (.ofType p t) =
        some (.struct d, us) ∧ d.members.map MemberDef.ident =
          fields.map fun f => fieldIdent f.name := by
    intro t isError fields hbody
    refine ⟨_, _, by simp only [dataOf?, ResolvedType.ofType, hbody, ResolvedBody.ofBody]; rfl, ?_⟩
    simp [memberOf, ResolvedField.ofField, Function.comp_def]
  constructor
  · intro h t ht isError fields hbody
    obtain ⟨d, us, hd, hidents⟩ := hdata hbody
    rw [← hidents]
    refine h d (List.mem_map.2 ⟨(.struct d, us), List.mem_filterMap.2 ⟨_, ?_, hd⟩, rfl⟩)
    exact List.mem_map_of_mem ht
  · intro h d hd
    obtain ⟨⟨_, us⟩, hmem, rfl⟩ := List.mem_map.1 hd
    obtain ⟨_, htypes, hd⟩ := List.mem_filterMap.1 hmem
    obtain ⟨t, ht, rfl⟩ := List.mem_map.1 htypes
    cases hbody : t.body with
    | record isError fields =>
      obtain ⟨d', us', hd', hidents⟩ := hdata hbody
      obtain ⟨rfl, -⟩ : d = d' ∧ us = us' := by simpa [hd] using hd'
      exact hidents ▸ h t ht isError fields hbody
    | symbols | fixed => simp [dataOf?, ResolvedType.ofType, hbody, ResolvedBody.ofBody] at hd

/-- The methods are the messages, with the identifiers of the parameters for parameters. -/
theorem forall_service_iff {P Q : List String → Prop} (hnil : Q []) :
    (∀ s ∈ (Module.ofResolved (.ofProtocol p)).service,
      (∀ f ∈ s.methods, P (f.parameters.map MemberDef.ident)) ∧
        Q (s.methods.map MethodDef.ident)) ↔
    (∀ m ∈ p.messages, P (m.request.map fun f => fieldIdent f.name)) ∧
      Q (p.messages.map fun m => fieldIdent m.name) := by
  have hmethods : ∀ s ∈ (Module.ofResolved (.ofProtocol p)).service,
      s.methods = p.messages.map fun m => (methodOf (.ofProtocol p) (.ofMessage p m)).1 := by
    intro s hs
    rw [(eq_of_mem_serviceOf? hs).1]
    simp [Resolved.ofProtocol, Function.comp_def]
  have hnames : ∀ m : Message,
      (methodOf (.ofProtocol p) (.ofMessage p m)).1.ident = fieldIdent m.name ∧
        (methodOf (.ofProtocol p) (.ofMessage p m)).1.parameters.map MemberDef.ident =
          m.request.map fun f => fieldIdent f.name := by
    intro m
    exact List.cons_eq_cons.1 (names_methodOf m)
  have hservice : ∀ s ∈ (Module.ofResolved (.ofProtocol p)).service,
      ((∀ f ∈ s.methods, P (f.parameters.map MemberDef.ident)) ∧
        Q (s.methods.map MethodDef.ident)) ↔
      (∀ m ∈ p.messages, P (m.request.map fun f => fieldIdent f.name)) ∧
        Q (p.messages.map fun m => fieldIdent m.name) := by
    intro s hs
    simp [hmethods s hs, hnames, Function.comp_def]
  constructor
  · intro h
    by_cases hempty : p.messages = []
    · simpa [hempty] using hnil
    · obtain ⟨s, hs⟩ := exists_service hempty
      exact (hservice s hs).1 (h s hs)
  · exact fun h s hs => (hservice s hs).2 h

/-- **When members differ.**  In the code that is generated for a well-formed protocol the members
of each struct, the parameters of each method and the methods of the trait have different
identifiers exactly if no names in one place of the protocol clash. -/
theorem hasDistinctMembers_iff (hvalid : p.validate = .ok ()) :
    (Module.ofResolved (.ofProtocol p)).HasDistinctMembers ↔ p.KeepsMembersApart := by
  have hp := Protocol.validate_eq_ok_iff.1 hvalid
  have hfields : ∀ fields ∈ p.fieldLists, ((fields.map fun f => fieldIdent f.name).Nodup ↔
      fields.Pairwise fun f g => ¬ Clash f.name g.name) :=
    fun fields hmem => nodup_map_fieldIdent_iff (hp.allowsFields hmem).isIdentifier
  have hmessages : (p.messages.map fun m => fieldIdent m.name).Nodup ↔ _ :=
    nodup_map_fieldIdent_iff fun m hm => (hp.messages m hm).isIdentifier
  have hstructs := forall_struct_iff (p := p) (P := List.Nodup)
  have hservice := forall_service_iff (p := p) (P := List.Nodup) (Q := List.Nodup) List.nodup_nil
  constructor
  · rintro ⟨structs, parameters, methods⟩
    obtain ⟨hparameters, hmethods⟩ := hservice.1 fun s hs => ⟨parameters s hs, methods s hs⟩
    refine ⟨fun fields hmem => (hfields fields hmem).1 ?_, hmessages.1 hmethods⟩
    obtain ⟨t, ht, isError, hbody⟩ | ⟨m, hm, rfl⟩ := Protocol.mem_fieldLists.1 hmem
    · exact hstructs.1 structs t ht isError fields hbody
    · exact hparameters m hm
  · rintro ⟨hmembers, hapart⟩
    have hnodup := fun fields hmem => (hfields fields hmem).2 (hmembers fields hmem)
    have hmethods := hservice.2 ⟨fun m hm =>
      hnodup _ (Protocol.mem_fieldLists.2 (.inr ⟨m, hm, rfl⟩)), hmessages.2 hapart⟩
    refine ⟨hstructs.2 fun t ht isError fields hbody => ?_, fun s hs => (hmethods s hs).1,
      fun s hs => (hmethods s hs).2⟩
    exact hnodup fields (Protocol.mem_fieldLists.2 (.inl ⟨t, ht, isError, hbody⟩))

/-- A record with one name in two styles. -/
def fooMembers : Protocol :=
  (Protocol.empty "P" none).addTypes [{
    name := "R"
    body := .record false
      [{ name := "fooBar", schema := .primitive .int },
       { name := "foo_bar", schema := .primitive .int }] }]

/-- The record has two members of one name, where the members of the shop differ. -/
theorem fooMembers_clash :
    fooMembers.validate = .ok () ∧
      ¬ (Module.ofResolved (.ofProtocol fooMembers)).HasDistinctMembers ∧
      shop.validate = .ok () ∧ (Module.ofResolved (.ofProtocol shop)).HasDistinctMembers := by
  refine ⟨rfl, fun h => ?_, rfl, (hasDistinctMembers_iff (p := shop) rfl).2 ⟨?_, ?_⟩⟩
  · have hmembers := ((hasDistinctMembers_iff (p := fooMembers) rfl).1 h).members
    exact absurd (hmembers _ (List.mem_singleton_self _)) (by decide)
  · decide
  · decide

end Target

end IdlCompiler
