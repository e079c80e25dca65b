/-
# Documentation of elements

A documentation comment may stand before a protocol, a type, a field, a message or a parameter at
several places: before each of its annotations, and before the keyword or the type behind them.
Only the first of these places counts, and for a field the place before its name.  A comment at
any other place is lost.

Main statement: `exists_isDocumented_of_ofIdl`.  Where an element stands in a text is said by the
grammar, `Stands`; what its places are, by its first tokens, `Begins`; and which comments stand at
a place, by the cuts of the text, `docsAt`.
-/
import IdlCompiler.Proofs.Lowering
import IdlCompiler.Proofs.Tokenization

namespace IdlCompiler.Idl

/-! ## Parts of lists of phrases -/

section Parts

variable {α : Type} {P : Phrases α} {ts : List Token} {a : α} {as bs : List α}

/-- A phrase and the comma behind it. -/
inductive WithComma (P : Phrases α) : Phrases α
  | comma {ts : List Token} {comma : Token} {a : α} (phrase : P ts a)
      (kind : comma.kind = .mark .comma) : WithComma P (ts ++ [comma]) a

theorem Repeated.exists_middle (h : Repeated P ts (as ++ a :: bs)) :
    ∃ before vs behind, ts = before ++ (vs ++ behind) ∧ Repeated P before as ∧ P vs a := by
  induction as generalizing ts with
  | nil =>
    cases h with
    | cons hhead _ => exact ⟨[], _, _, rfl, .nil, hhead⟩
  | cons b as ih =>
    cases h with
    | cons hhead htail =>
      obtain ⟨before, vs, behind, rfl, hbefore, hvs⟩ := ih htail
      exact ⟨_, vs, behind, by rw [← List.append_assoc], .cons hhead hbefore, hvs⟩

theorem Listed.exists_middle (h : Listed P ts (as ++ a :: bs)) : ∃ before vs behind,
    ts = before ++ (vs ++ behind) ∧ Repeated (WithComma P) before as ∧ P vs a := by
  induction as generalizing ts with
  | nil =>
    cases h with
    | one hhead => exact ⟨[], ts, [], by simp, .nil, hhead⟩
    | cons hhead _ _ => exact ⟨[], _, _, rfl, .nil, hhead⟩
  | cons b as ih =>
    rw [List.cons_append] at h
    generalize hbs : as ++ a :: bs = cs at h
    cases h with
    | one => simp at hbs
    | cons hhead hkind htail =>
      obtain ⟨before, vs, behind, rfl, hbefore, hvs⟩ := ih (hbs ▸ htail)
      exact ⟨_, vs, behind, by simp, .cons (.comma hhead hkind) hbefore, hvs⟩

theorem Separated.listed (h : Separated P ts as) : Listed P ts as := by
  induction h with
  | one hhead => exact .one hhead
  | cons hhead hkind _ ih => exact .cons hhead hkind ih

end Parts

/-! ## Elements and where they stand -/

/-- What documentation belongs to. -/
inductive Element where
  | protocol (p : Protocol)
  | type (t : NamedType)
  | field (f : Field)
  | message (m : Message)
  | parameter (f : Field)

/-- The documentation of an element. -/
def Element.doc : Element → Option String
  | protocol p => p.doc
  | type t => t.doc
  | field f => f.doc
  | message m => m.doc
  | parameter f => f.doc

/-- The elements of a protocol. -/
def elementsOf (p : Protocol) : List Element :=
  .protocol p :: (p.types.flatMap fun t => .type t :: (t.fields?.getD []).map .field) ++
    p.messages.flatMap fun m => .message m :: m.request.map .parameter

/-- What comes before the parts of a protocol, a record or an error: annotations, a keyword, a
name and a bracket. -/
inductive IsOpening (keyword : String) : List Token → Prop
  | opening {ts : List Token} {k n o : Token} {annotations : List Annotation} {name : String}
      (notes : Repeated IsNote ts annotations) (start : k.kind = .word keyword)
      (word : n.kind = .word name) (opens : o.kind = .mark .openBrace) :
      IsOpening keyword (ts ++ [k, n, o])

/-- In an interface definition of a protocol the phrase `vs` is the declaration `d`. -/
inductive Declares : List Token → Protocol → List Token → Declaration → Prop
  | declares {front before vs behind : List Token} {head : Protocol}
      {earlier later : List Declaration} {d : Declaration} (opening : IsOpening "protocol" front)
      (others : Repeated (IsDeclaration .language) before earlier)
      (phrase : IsDeclaration .language vs d) :
      Declares (front ++ (before ++ (vs ++ behind))) (protocolOf head (earlier ++ d :: later)) vs d

/-- In a declaration of fields the token `n` names the field `f`, behind the fields `earlier`. -/
inductive NamesField : List Token → Token → List Field → Field → Prop
  | names {ts us vs ws behind : List Token} {n : Token} {annotations : List Annotation}
      {schema : Schema} {earlier : List Field} {f : Field} (notes : Repeated IsNote ts annotations)
      (type : IsType maxNesting us schema)
      (others : Repeated (WithComma (IsVariable (docOf (ts ++ us)) (propertiesOf annotations)
        schema)) vs earlier)
      (phrase : IsVariable (docOf (ts ++ us)) (propertiesOf annotations) schema (n :: ws) f) :
      NamesField (ts ++ (us ++ (vs ++ (n :: (ws ++ behind))))) n earlier f

/-- In the declaration of a record or an error the token `n` of the declaration `vs` of fields
names the field `f`. -/
inductive HasField : List Token → NamedType → List Token → Token → Field → Prop
  | field {front before vs behind : List Token} {n : Token} {t : NamedType} {f : Field}
      {groups : List (List Field)} {earlier later : List Field} {keyword : String}
      {isError : Bool} (opening : IsOpening keyword front)
      (others : Repeated (IsFields .language) before groups) (names : NamesField vs n earlier f)
      (body : t.body = .record isError (groups.flatten ++ (earlier ++ f :: later))) :
      HasField (front ++ (before ++ (vs ++ behind))) t vs n f

/-- In the declaration of a message the phrase `vs` is the parameter `f`. -/
inductive HasParameter : List Token → Message → List Token → Field → Prop
  | parameter {ts us before vs behind : List Token} {n o : Token} {annotations : List Annotation}
      {response : Schema} {name : String} {m : Message} {earlier later : List Field} {f : Field}
      (notes : Repeated IsNote ts annotations) (answer : IsResponse .language us response)
      (word : n.kind = .word name) (opens : o.kind = .mark .openParen)
      (others : Repeated (WithComma (IsParameter .language)) before earlier)
      (phrase : IsParameter .language vs f) (request : m.request = earlier ++ f :: later) :
      HasParameter (ts ++ (us ++ n :: o :: (before ++ (vs ++ behind)))) m vs f

/-- In an interface definition of a protocol an element stands in the phrase `vs`.  The phrase of
a field is the declaration that it shares with other fields, so the token that names it is given
as well. -/
inductive Stands (tokens : List Token) (p : Protocol) :
    Element → Option Token → List Token → Prop
  | protocol : Stands tokens p (.protocol p) none tokens
  | type {vs : List Token} {t : NamedType} (declared : Declares tokens p vs (.type t)) :
      Stands tokens p (.type t) none vs
  | field {ws vs : List Token} {t : NamedType} {n : Token} {f : Field}
      (declared : Declares tokens p ws (.type t)) (inside : HasField ws t vs n f) :
      Stands tokens p (.field f) (some n) vs
  | message {vs : List Token} {m : Message} (declared : Declares tokens p vs (.message m)) :
      Stands tokens p (.message m) none vs
  | parameter {ws vs : List Token} {m : Message} {f : Field}
      (declared : Declares tokens p ws (.message m)) (inside : HasParameter ws m vs f) :
      Stands tokens p (.parameter f) none vs

variable {tokens ts us vs ws : List Token} {p : Protocol} {e : Element} {own : Option Token}
  {d : Declaration} {n t : Token}

/-! ## Every element stands somewhere -/

theorem exists_declares_of_mem (h : IsUnit .language tokens p) :
    ∃ head declarations, p = protocolOf head declarations ∧
      ∀ d ∈ declarations, ∃ vs, Declares tokens p vs d := by
  cases h with
  | @unit ts us k n o c e annotations name declarations hnotes _ hkeyword hword hopens hmembers =>
    refine ⟨_, declarations, rfl, fun d hd => ?_⟩
    obtain ⟨earlier, later, rfl⟩ := List.append_of_mem hd
    obtain ⟨before, vs, behind, rfl, hbefore, hvs⟩ := hmembers.exists_middle
    refine ⟨vs, ?_⟩
    have htokens : ts ++ k :: n :: o :: (before ++ (vs ++ behind) ++ [c, e])
        = ts ++ [k, n, o] ++ (before ++ (vs ++ (behind ++ [c, e]))) := by simp
    rw [htokens]
    exact .declares (.opening hnotes hkeyword hword hopens) hbefore hvs

theorem exists_namesField {group : List Field} {f : Field} (h : IsFields .language vs group)
    (hf : f ∈ group) :
    ∃ n earlier later, group = earlier ++ f :: later ∧ NamesField vs n earlier f := by
  cases h with
  | @fields ts us vs semicolon annotations schema fields hnotes _ htype hnames _ =>
    obtain ⟨earlier, later, rfl⟩ := List.append_of_mem hf
    obtain ⟨before, ws, behind, rfl, hbefore, hws⟩ := hnames.listed.exists_middle
    cases ws with
    | nil => cases hws
    | cons n ws =>
      have htokens : ts ++ (us ++ (before ++ ((n :: ws) ++ behind) ++ [semicolon]))
          = ts ++ (us ++ (before ++ (n :: (ws ++ (behind ++ [semicolon]))))) := by simp
      rw [htokens]
      exact ⟨n, earlier, later, rfl, .names hnotes htype hbefore hws⟩

theorem exists_hasField {t : NamedType} {f : Field} (h : IsDeclaration .language ws (.type t))
    (hf : f ∈ t.fields?.getD []) : ∃ vs n, HasField ws t vs n f := by
  cases h with
  | @type ts us k annotations keyword name body hnotes _ hword hbody =>
    cases hbody with
    | @record n o c us name groups isError hname hopens hmembers _ =>
      obtain ⟨group, hgroup, hmem⟩ := List.mem_flatten.1 hf
      obtain ⟨groups, groups', rfl⟩ := List.append_of_mem hgroup
      obtain ⟨before, vs, behind, rfl, hbefore, hvs⟩ := hmembers.exists_middle
      obtain ⟨n', earlier, later, rfl, hnames⟩ := exists_namesField hvs hmem
      have hall : (groups ++ (earlier ++ f :: later) :: groups').flatten
          = groups.flatten ++ (earlier ++ f :: (later ++ groups'.flatten)) := by simp
      have htokens : ts ++ k :: n :: o :: (before ++ (vs ++ behind) ++ [c])
          = ts ++ [k, n, o] ++ (before ++ (vs ++ (behind ++ [c]))) := by simp
      rw [htokens]
      exact ⟨vs, n', .field (.opening hnotes hword hname hopens) hbefore hnames
        (congrArg (TypeBody.record isError) hall)⟩
    | enum => cases hf
    | fixed => cases hf

theorem exists_hasParameter {m : Message} {f : Field} (h : IsDeclaration .language ws (.message m))
    (hf : f ∈ m.request) : ∃ vs, HasParameter ws m vs f := by
  cases h with
  | @message ts us annotations m hnotes _ hmessage =>
    cases hmessage with
    | message hanswer hword hopens hparameters _ _ _ _ =>
      obtain ⟨earlier, later, rfl⟩ := List.append_of_mem hf
      obtain ⟨before, vs, behind, rfl, hbefore, hvs⟩ := hparameters.exists_middle
      refine ⟨vs, ?_⟩
      simp only [List.append_assoc]
      exact .parameter hnotes hanswer hword hopens hbefore hvs rfl

theorem Declares.phrase {p : Protocol} (h : Declares tokens p vs d) :
    IsDeclaration .language vs d := by
  cases h with
  | declares _ _ hphrase => exact hphrase

/-- Every element of a protocol stands somewhere in its interface definition. -/
theorem exists_stands_of_mem (h : IsUnit .language tokens p) (he : e ∈ elementsOf p) :
    ∃ own vs, Stands tokens p e own vs := by
  obtain ⟨head, declarations, hp, hdeclares⟩ := exists_declares_of_mem h
  rw [elementsOf, List.cons_append, List.mem_cons, List.mem_append] at he
  rcases he with rfl | he | he
  · exact ⟨none, tokens, .protocol⟩
  · obtain ⟨t, ht, he⟩ := List.mem_flatMap.1 he
    rw [hp] at ht
    obtain ⟨d, hd, hdt⟩ := List.mem_filterMap.1 ht
    obtain rfl : d = .type t := by
      cases d with
      | type => rw [← Option.some.inj hdt]
      | message => cases hdt
    obtain ⟨ws, hws⟩ := hdeclares _ hd
    rcases List.mem_cons.1 he with rfl | he
    · exact ⟨none, ws, .type hws⟩
    · obtain ⟨f, hf, rfl⟩ := List.mem_map.1 he
      obtain ⟨vs, n, hfield⟩ := exists_hasField hws.phrase hf
      exact ⟨some n, vs, .field hws hfield⟩
  · obtain ⟨m, hm, he⟩ := List.mem_flatMap.1 he
    rw [hp] at hm
    obtain ⟨d, hd, hdm⟩ := List.mem_filterMap.1 hm
    obtain rfl : d = .message m := by
      cases d with
      | type => cases hdm
      | message => rw [← Option.some.inj hdm]
    obtain ⟨ws, hws⟩ := hdeclares _ hd
    rcases List.mem_cons.1 he with rfl | he
    · exact ⟨none, ws, .message hws⟩
    · obtain ⟨f, hf, rfl⟩ := List.mem_map.1 he
      obtain ⟨vs, hparameter⟩ := exists_hasParameter hws.phrase hf
      exact ⟨none, vs, .parameter hws hparameter⟩

/-! ## The places before an element -/

/-- The start of an element: its annotations, and the keyword or the start of the type behind
them. -/
structure Head where
  notes : List Annotation
  key : Token

/-- A phrase starts with annotations and a word. -/
inductive Begins : List Token → Head → Prop
  | begins {ts us : List Token} {k : Token} {annotations : List Annotation} {word : String}
      (notes : Repeated IsNote ts annotations) (key : k.kind = .word word) :
      Begins (ts ++ k :: us) ⟨annotations, k⟩

/-- The places at which a comment may stand before an element: before each annotation, and behind
the last one. -/
def Head.places (head : Head) : List Position :=
  head.notes.map (·.position) ++ [head.key.position]

theorem begins_of_isDeclaration (h : IsDeclaration .language vs d) : ∃ head, Begins vs head := by
  cases h with
  | type hnotes _ hword _ => exact ⟨_, .begins hnotes hword⟩
  | message hnotes _ hmessage =>
    cases hmessage with
    | @message ts _ _ _ n o c semicolon response name _ _ _ hanswer hword =>
      cases hanswer with
      | void hkind => exact ⟨_, .begins hnotes hkind⟩
      | type htype _ =>
        obtain ⟨u, us, rfl, word, hu⟩ := startsWith_isType _ _ _ htype
        exact ⟨_, .begins hnotes hu⟩

theorem begins_of_namesField {earlier : List Field} {f : Field} (h : NamesField vs n earlier f) :
    ∃ head, Begins vs head := by
  cases h with
  | names hnotes htype =>
    obtain ⟨u, us, rfl, word, hu⟩ := startsWith_isType _ _ _ htype
    exact ⟨_, .begins hnotes hu⟩

theorem begins_of_isParameter {f : Field} (h : IsParameter .language vs f) :
    ∃ head, Begins vs head := by
  cases h with
  | parameter hnotes _ htype =>
    obtain ⟨u, us, rfl, word, hu⟩ := startsWith_isType _ _ _ htype
    exact ⟨_, .begins hnotes hu⟩

theorem begins_of_stands (hunit : IsUnit .language tokens p) (h : Stands tokens p e own vs) :
    ∃ head, Begins vs head := by
  cases h with
  | protocol =>
    cases hunit with
    | unit hnotes _ hkeyword => exact ⟨_, .begins hnotes hkeyword⟩
  | type hdeclared => exact begins_of_isDeclaration hdeclared.phrase
  | field _ hinside =>
    cases hinside with
    | field _ _ hnames => exact begins_of_namesField hnames
  | message hdeclared => exact begins_of_isDeclaration hdeclared.phrase
  | parameter _ hinside =>
    cases hinside with
    | parameter _ _ _ _ _ hphrase => exact begins_of_isParameter hphrase

/-- The first place is before the first token. -/
theorem Begins.exists_first {head : Head} (h : Begins vs head) :
    ∃ t us later, vs = t :: us ∧ t.kind ≠ .endOfInput ∧ head.places = t.position :: later := by
  cases h with
  | begins hnotes hkey =>
    cases hnotes with
    | nil => exact ⟨_, _, [], rfl, by simp [hkey], rfl⟩
    | cons hnote _ =>
      cases hnote with
      | note hsign => exact ⟨_, _, _, rfl, by simp [hsign], rfl⟩

/-! ## The documentation of an element -/

theorem docOf_append_cons (us : List Token) : docOf (ts ++ t :: us) = docOf (ts ++ [t]) := by
  cases ts <;> rfl

theorem docOf_notes_append {levels : Nat} {schema : Schema} (htype : IsType levels us schema) :
    docOf (ts ++ (us ++ vs)) = docOf (ts ++ us) := by
  obtain ⟨u, us, rfl, -⟩ := startsWith_isType _ _ _ htype
  rw [List.cons_append, docOf_append_cons, docOf_append_cons us]

theorem doc_of_isDeclaration_type {t : NamedType} (h : IsDeclaration .language vs (.type t)) :
    t.doc = docOf vs := by
  cases h with
  | type => exact (docOf_append_cons _).symm

/-- The documentation of an element is the one of its first token, unless the name of a field has
its own. -/
theorem doc_of_stands (hunit : IsUnit .language tokens p) (h : Stands tokens p e own vs) :
    e.doc = (own.bind Token.doc).or (docOf vs) := by
  cases h with
  | protocol =>
    cases hunit with
    | unit => exact (docOf_append_cons _).symm
  | type hdeclared => exact doc_of_isDeclaration_type hdeclared.phrase
  | field _ hinside =>
    cases hinside with
    | field _ _ hnames =>
      cases hnames with
      | names _ htype _ hphrase =>
        rw [docOf_notes_append htype]
        cases hphrase with
        | named => rfl
  | message hdeclared =>
    cases hdeclared.phrase with
    | message => rfl
  | parameter _ hinside =>
    cases hinside with
    | parameter _ _ _ _ _ hphrase =>
      cases hphrase with
      | parameter _ _ htype =>
        rw [docOf_notes_append htype]
        rfl

theorem Declares.subset (h : Declares tokens p vs d) : vs ⊆ tokens := by
  cases h with
  | declares =>
    intro t ht
    simp [ht]

theorem subset_of_stands (h : Stands tokens p e own vs) : vs ⊆ tokens := by
  cases h with
  | protocol => exact fun _ ht => ht
  | type hdeclared | message hdeclared => exact hdeclared.subset
  | field hdeclared hinside =>
    cases hinside with
    | field => exact fun t ht => hdeclared.subset (by simp [ht])
  | parameter hdeclared hinside =>
    cases hinside with
    | parameter => exact fun t ht => hdeclared.subset (by simp [ht])

theorem own_of_stands (h : Stands tokens p e (some n) vs) :
    n ∈ tokens ∧ n.kind ≠ .endOfInput := by
  have hvs := subset_of_stands h
  cases h with
  | field _ hinside =>
    cases hinside with
    | field _ _ hnames =>
      cases hnames with
      | names _ _ _ hphrase =>
        refine ⟨hvs (by simp), ?_⟩
        cases hphrase with
        | named hword => simp [hword]

/-! ## Comments in the text -/

/-- The documentation comments at a place behind cuts: those between the token there and the
token before it. -/
def docsFrom (place : Position) (before : List Cut) : List Cut → List String
  | [] => []
  | cut :: cuts =>
    if positionBehind (textOf before) = place then docsBehind before
    else docsFrom place (before ++ [cut]) cuts

/-- The documentation comments at a place in a text. -/
def docsAt (cuts : List Cut) (place : Position) : List String := docsFrom place [] cuts

theorem Position.not_isBefore_self (position : Position) : ¬ position.IsBefore position := by
  simp [IsBefore]

/-- The documentation of a token is the last comment at its place. -/
theorem doc_of_mem_tokensBehind {before cuts : List Cut} (hcuts : ∀ cut ∈ cuts, cut.text ≠ [])
    (ht : t ∈ tokensBehind before cuts) (hkind : t.kind ≠ .endOfInput) :
    t.doc = (docsFrom t.position before cuts).getLast? := by
  induction cuts generalizing before with
  | nil =>
    obtain rfl := List.mem_singleton.1 ht
    exact absurd rfl hkind
  | cons cut cuts ih =>
    obtain ⟨hcut, hcuts⟩ := List.forall_mem_cons.1 hcuts
    rw [docsFrom]
    rcases List.mem_append.1 ht with ht | ht
    · obtain ⟨kind, -, rfl⟩ := Option.map_eq_some_iff.1 (Option.mem_toList.1 ht)
      rw [if_pos rfl]
    · obtain ⟨more, hmore⟩ := exists_of_mem_tokensBehind ht
      have hbefore : (positionBehind (textOf before)).IsBefore t.position := by
        rw [hmore, textOf_concat, List.append_assoc, ← after_positionBehind]
        exact Position.isBefore_after _ (by simp [hcut])
      rw [if_neg fun heq => Position.not_isBefore_self _ (heq ▸ hbefore), ih hcuts ht]

/-- In the text with these cuts every element of a protocol has the documentation that counts. -/
structure IsDocumented (cuts : List Cut) (p : Protocol) : Prop where
  /-- Every element stands somewhere. -/
  stands : ∀ e ∈ elementsOf p, ∃ own vs head,
    Stands (tokensBehind [] cuts) p e own vs ∧ Begins vs head
  /-- Wherever it stands, it has the last comment before its name if it is a field, or else the
  last one at the first of its places. -/
  doc : ∀ {e own vs head first later}, Stands (tokensBehind [] cuts) p e own vs →
    Begins vs head → head.places = first :: later →
      e.doc = (own.bind fun n => (docsAt cuts n.position).getLast?).or (docsAt cuts first).getLast?
  /-- So the only comment at its places is its documentation if it stands at the first of them,
  and it has none if the comment stands at another one. -/
  single : ∀ {e own vs head first later d}, Stands (tokensBehind [] cuts) p e own vs →
    Begins vs head → head.places = first :: later → (∀ n ∈ own, docsAt cuts n.position = []) →
      head.places.flatMap (docsAt cuts) = [d] →
        (docsAt cuts first = [d] ∧ e.doc = some d) ∨ (docsAt cuts first = [] ∧ e.doc = none)

theorem isDocumented_of_isUnit {cuts : List Cut} (hcuts : ∀ cut ∈ cuts, cut.text ≠ [])
    (hunit : IsUnit .language (tokensBehind [] cuts) p) : IsDocumented cuts p := by
  have hdoc {e own vs head first later} (hstands : Stands (tokensBehind [] cuts) p e own vs)
      (hbegins : Begins vs head) (hplaces : head.places = first :: later) :
      e.doc = (own.bind fun n => (docsAt cuts n.position).getLast?).or
        (docsAt cuts first).getLast? := by
    obtain ⟨t, us, later', rfl, hkind, hplaces'⟩ := hbegins.exists_first
    obtain rfl := (List.cons.inj (hplaces.symm.trans hplaces')).1
    have hfirst : docOf (t :: us) = (docsAt cuts t.position).getLast? :=
      doc_of_mem_tokensBehind hcuts (subset_of_stands hstands (by simp)) hkind
    rw [doc_of_stands hunit hstands, hfirst]
    cases own with
    | none => rfl
    | some n =>
      obtain ⟨hn, hnkind⟩ := own_of_stands hstands
      rw [Option.bind_some, Option.bind_some, doc_of_mem_tokensBehind hcuts hn hnkind]
      rfl
  refine ⟨fun e he => ?_, hdoc, ?_⟩
  · obtain ⟨own, vs, hstands⟩ := exists_stands_of_mem hunit he
    obtain ⟨head, hbegins⟩ := begins_of_stands hunit hstands
    exact ⟨own, vs, head, hstands, hbegins⟩
  · intro e own vs head first later d hstands hbegins hplaces hown hsingle
    have hname : (own.bind fun n => (docsAt cuts n.position).getLast?) = none := by
      cases own with
      | none => rfl
      | some n => simp [hown n rfl]
    have hfirst := hdoc hstands hbegins hplaces
    rw [hname, Option.none_or] at hfirst
    rw [hplaces, List.flatMap_cons, List.append_eq_singleton_iff] at hsingle
    rcases hsingle with ⟨hnone, -⟩ | ⟨hone, -⟩
    · exact .inr ⟨hnone, by rw [hfirst, hnone]; rfl⟩
    · exact .inl ⟨hone, by rw [hfirst, hone]; rfl⟩

/-- **Which documentation comments are kept.**  An element has the comment at the first of its
places, and comments at its other places are lost. -/
theorem exists_isDocumented_of_ofIdl {text : String} {p : Protocol}
    (h : Protocol.ofIdl text = .ok p) :
    ∃ cuts, CutsUp text.toList cuts [] ∧ IsDocumented cuts p := by
  obtain ⟨tokens, htokens, hunit, -⟩ := Protocol.exists_tokens_of_ofIdl h
  obtain ⟨cuts, rest, hcuts, -, hresult⟩ := exists_cutsUp_of_tokenize text
  cases rest with
  | cons c cs => cases htokens.symm.trans hresult
  | nil =>
    obtain rfl := Except.ok.inj (htokens.symm.trans hresult)
    exact ⟨cuts, hcuts, isDocumented_of_isUnit (fun cut => hcuts.ne_nil_of_mem) hunit⟩

/-- A record with a comment between its annotation and its keyword. -/
def lateCharacters : List Char := "protocol P \x7b @a(1) /** d */ record R \x7b\x7d \x7d".toList

/-- The comment stands before the keyword, and the record has no documentation. -/
theorem lateCharacters_lose_comment : ∃ p, Protocol.ofIdl (String.ofList lateCharacters) = .ok p ∧
    p.types.map (·.doc) = [none] ∧ ∃ cuts, CutsUp (String.ofList lateCharacters).toList cuts [] ∧
      IsDocumented cuts p ∧
      ∃ t ∈ tokensBehind [] cuts, t.kind = .word "record" ∧ t.doc = some "d" := by
  have hread : ∃ p, Protocol.ofIdl (String.ofList lateCharacters) = .ok p ∧
      p.types.map (·.doc) = [none] := Protocol.exists_of_characters (by decide +kernel)
  have htoken : (tokensFrom lateCharacters.length .start none lateCharacters).toOption.any
      (fun tokens => tokens.any fun t => t.kind = .word "record" ∧ t.doc = some "d") = true := by
    decide +kernel
  obtain ⟨p, hp, htypes⟩ := hread
  obtain ⟨cuts, hcuts, hdocumented⟩ := exists_isDocumented_of_ofIdl hp
  refine ⟨p, hp, htypes, cuts, hcuts, hdocumented, ?_⟩
  have htokens := tokenize_of_cutsUp hcuts startsNoPiece_nil
  rw [tokenize, String.toList_ofList] at htokens
  rw [htokens] at htoken
  obtain ⟨t, ht, hkind⟩ := List.any_eq_true.1 htoken
  exact ⟨t, ht, of_decide_eq_true hkind⟩

end IdlCompiler.Idl
