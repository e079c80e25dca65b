/-
# Steps that read phrases

What it means that a step over tokens reads the phrases of a nonterminal: if the step
succeeds, then the tokens that it has taken are a phrase, and its result is what the phrase
stands for; and the step succeeds on every phrase that is followed by a token that does not
go on with it (`Reads`).  Small lemmas say what the elementary steps take, and one lemma for
each repetition says which repeated phrases it reads.

Cursors end with the end of the text, and no other token is one (`EndsOnce`).  So a step
that takes a token always moves on, which is what the rounds of a repetition count.
-/
import IdlCompiler.Proofs.Grammar

namespace IdlCompiler.Idl

/-- The last token, and no other, is the end of the text. -/
def EndsOnce (tokens : List Token) : Prop :=
  ∃ ts e, tokens = ts ++ [e] ∧ e.kind = .endOfInput ∧ ∀ t ∈ ts, t.kind ≠ .endOfInput

/-- The tokens from the current one on. -/
def Cursor.tokens (c : Cursor) : List Token := c.current :: c.ahead

/-- The cursor `c'` is the cursor `c` behind the tokens `ts`. -/
structure Behind (c : Cursor) (ts : List Token) (c' : Cursor) : Prop where
  endsOnce : EndsOnce c.tokens
  tokens : c.tokens = ts ++ c'.tokens
  depth : c'.depth = c.depth

namespace Behind

variable {c c' m : Cursor} {ts us : List Token} {t : Token}

theorem refl (h : EndsOnce c.tokens) : Behind c [] c := ⟨h, rfl, rfl⟩

theorem notEnd (h : Behind c ts c') : ∀ t ∈ ts, t.kind ≠ .endOfInput := by
  obtain ⟨us, e, htokens, -, hus⟩ := h.endsOnce
  intro t ht
  have hlast := h.tokens
  rw [htokens, Cursor.tokens] at hlast
  -- the end is not among the tokens taken, as the current token stands behind them
  rcases List.append_eq_append_iff.1 hlast with ⟨as, rfl, hrest⟩ | ⟨bs, rfl, -⟩
  · cases as with
    | nil => exact hus t (by simpa using ht)
    | cons a as => simp at hrest
  · exact hus t (List.mem_append_left _ ht)

theorem endsOnce' (h : Behind c ts c') : EndsOnce c'.tokens := by
  obtain ⟨us, e, htokens, he, hus⟩ := h.endsOnce
  have hlast := h.tokens
  rw [htokens] at hlast
  rcases List.append_eq_append_iff.1 hlast with ⟨as, rfl, hrest⟩ | ⟨bs, rfl, hrest⟩
  · cases as with
    | nil => exact ⟨[], e, by simpa using hrest.symm, he, by simp⟩
    | cons a as => simp [Cursor.tokens] at hrest
  · exact ⟨bs, e, hrest, he, fun t ht => hus t (List.mem_append_right _ ht)⟩

theorem trans (h : Behind c ts m) (h' : Behind m us c') : Behind c (ts ++ us) c' :=
  ⟨h.endsOnce, by rw [h.tokens, h'.tokens, List.append_assoc], h'.depth.trans h.depth⟩

/-- Behind two lists of tokens is behind the second one, after the first one. -/
theorem split (h : Behind c (ts ++ us) c') : ∃ m, Behind c ts m ∧ Behind m us c' := by
  obtain ⟨hends, htokens, hdepth⟩ := id h
  cases us with
  | nil => exact ⟨c', by simpa using h, .refl h.endsOnce'⟩
  | cons u us =>
    have hfirst : Behind c ts { current := u, ahead := us ++ c'.tokens, depth := c.depth } :=
      ⟨hends, by simpa [Cursor.tokens] using htokens, rfl⟩
    exact ⟨_, hfirst, hfirst.endsOnce', rfl, hdepth⟩

theorem eq_of_nil (h : Behind c [] c') : c = c' := by
  obtain ⟨-, htokens, hdepth⟩ := h
  obtain ⟨current, ahead, depth⟩ := c
  obtain ⟨current', ahead', depth'⟩ := c'
  simp only [Cursor.tokens, List.nil_append, List.cons.injEq] at htokens
  obtain ⟨rfl, rfl⟩ := htokens
  obtain rfl : depth' = depth := hdepth
  rfl

theorem current_eq (h : Behind c (t :: ts) c') : c.current = t :=
  (List.cons.inj h.tokens).1

theorem split_cons (h : Behind c (t :: ts) c') : ∃ m, Behind c [t] m ∧ Behind m ts c' := by
  rw [← List.singleton_append] at h
  exact h.split

theorem length_eq (h : Behind c ts c') : c.ahead.length = ts.length + c'.ahead.length := by
  have hlength := congrArg List.length h.tokens
  simp only [Cursor.tokens, List.length_append, List.length_cons] at hlength
  omega

/-- Taking a token makes the rest shorter. -/
theorem length_lt (h : Behind c (t :: ts) c') : c'.ahead.length < c.ahead.length := by
  rw [h.length_eq, List.length_cons]
  omega

end Behind

namespace Parse

variable {α β : Type} {c c' m : Cursor} {t : Token}

/-! ## Outcomes of steps -/

theorem bind_eq_ok_iff {x : Parse α} {f : α → Parse β} {b : β} :
    (x >>= f) c = .ok b c' ↔ ∃ a m, x c = .ok a m ∧ f a m = .ok b c' := by
  change EStateM.bind x f c = _ ↔ _
  rw [EStateM.bind]
  cases x c with
  | ok a m =>
    constructor
    · exact fun h => ⟨a, m, rfl, h⟩
    · rintro ⟨a', m', heq, h⟩
      obtain ⟨rfl, rfl⟩ := EStateM.Result.ok.inj heq
      exact h
  | error e m => simp

theorem bind_of_ok {x : Parse α} {f : α → Parse β} {a : α} (h : x c = .ok a m) :
    (x >>= f) c = f a m := by
  change EStateM.bind x f c = _
  rw [EStateM.bind, h]

@[simp] theorem pure_eq_ok_iff {a b : α} : (pure a : Parse α) c = .ok b c' ↔ a = b ∧ c = c' := by
  change EStateM.Result.ok a c = .ok b c' ↔ _
  rw [EStateM.Result.ok.injEq]

theorem map_eq_ok_iff {f : α → β} {x : Parse α} {b : β} :
    (f <$> x) c = .ok b c' ↔ ∃ a, x c = .ok a c' ∧ f a = b := by
  change EStateM.map f x c = _ ↔ _
  rw [EStateM.map]
  cases x c with
  | ok a m =>
    constructor
    · intro h
      obtain ⟨hb, rfl⟩ := EStateM.Result.ok.inj h
      exact ⟨a, rfl, hb⟩
    · rintro ⟨a', heq, rfl⟩
      obtain ⟨rfl, rfl⟩ := EStateM.Result.ok.inj heq
      rfl
  | error e m => simp

theorem current_bind {f : Token → Parse β} : (current >>= f) c = f c.current c := rfl

theorem check_bind {kind : TokenKind} {f : Bool → Parse β} :
    (check kind >>= f) c = f (c.current.kind = kind) c := rfl

theorem eat_eq {kind : TokenKind} : eat kind c = (if decide (c.current.kind = kind) then
    advance >>= fun _ => pure true
  else pure false) c := rfl

theorem nested_of_lt {nesting : Nesting} {step : Parse α} (h : c.depth < maxNesting) :
    nested nesting step c = match step { c with depth := c.depth + 1 } with
      | .ok a c' => .ok a { c' with depth := c'.depth - 1 }
      | .error e c' => .error e { c' with depth := c'.depth - 1 } :=
  if_neg (Nat.not_le_of_lt h)

theorem nested_of_le {nesting : Nesting} {step : Parse α} (h : maxNesting ≤ c.depth) :
    nested nesting step c = fail (.nestedTooDeep nesting) c :=
  if_pos h

theorem whileSeeing_succ {kind : TokenKind} {step : Parse α} {rounds : Nat} :
    whileSeeing kind step (rounds + 1) c = (if decide (c.current.kind = kind) then
      step >>= fun a => whileSeeing kind step rounds >>= fun as => pure (a :: as)
    else pure []) c := rfl

theorem untilSeeing_succ {kind : TokenKind} {step : Parse α} {rounds : Nat} :
    untilSeeing kind step (rounds + 1) c = (if decide (c.current.kind = kind) then pure []
    else step >>= fun a => untilSeeing kind step rounds >>= fun as => pure (a :: as)) c := rfl

theorem untilSeeingCommas_succ {kind : TokenKind} {step : Parse α} {rounds : Nat} :
    untilSeeingCommas kind step (rounds + 1) c =
      (if decide (c.current.kind = kind) then pure []
      else step >>= fun a => eat (.mark .comma) >>= fun more =>
        if more then untilSeeingCommas kind step rounds >>= fun as => pure (a :: as)
        else pure [a]) c := rfl

theorem betweenCommas_succ {step : Parse α} {rounds : Nat} :
    betweenCommas step (rounds + 1) = step >>= fun a => eat (.mark .comma) >>= fun more =>
      if more then betweenCommas step rounds >>= fun as => pure (a :: as) else pure [a] := rfl

@[simp] theorem fail_ne_ok {fault : Fault} {a : α} : (fail fault : Parse α) c ≠ .ok a c' :=
  nofun

@[simp] theorem unexpected_ne_ok {expected : String} {a : α} :
    (unexpected expected : Parse α) c ≠ .ok a c' :=
  nofun

@[simp] theorem missing_ne_ok {expected : String} {a : α} :
    (missing expected : Parse α) c ≠ .ok a c' := by
  rw [missing, current_bind]
  split <;> nofun

theorem ofReading_eq_ok_iff {r : Reading α} {a : α} :
    ofReading r c = .ok a c' ↔ r = .ok a ∧ c = c' := by
  cases r with
  | ok b => simp [ofReading]
  | error e =>
    simp only [ofReading, reduceCtorEq, false_and, iff_false]
    exact nofun

/-! ## Elementary steps -/

/-- Going on takes the current token, unless it is the end of the text. -/
theorem advance_eq_ok_iff (hends : EndsOnce c.tokens) (hkind : c.current.kind ≠ .endOfInput) :
    advance c = .ok () c' ↔ Behind c [c.current] c' := by
  obtain ⟨ts, e, htokens, he, -⟩ := id hends
  cases hahead : c.ahead with
  | nil =>
    -- then the current token would be the end
    rw [Cursor.tokens, hahead] at htokens
    have hlast := congrArg List.getLast? htokens
    simp only [List.getLast?_singleton, List.getLast?_concat, Option.some.injEq] at hlast
    exact absurd (hlast ▸ he) hkind
  | cons u us =>
    have hadvance : advance c = .ok () { c with current := u, ahead := us } := by
      obtain ⟨current, ahead, depth⟩ := c
      subst hahead
      rfl
    rw [hadvance, EStateM.Result.ok.injEq]
    have hbehind : Behind c [c.current] { c with current := u, ahead := us } :=
      ⟨hends, by simp [Cursor.tokens, hahead], rfl⟩
    constructor
    · rintro ⟨-, rfl⟩
      exact hbehind
    · intro h
      obtain ⟨hends', htokens', hdepth'⟩ := h
      refine ⟨rfl, ?_⟩
      obtain ⟨current', ahead', depth'⟩ := c'
      simp only [Cursor.tokens, hahead, List.singleton_append, List.cons.injEq, true_and]
        at htokens'
      obtain ⟨rfl, rfl⟩ := htokens'
      obtain rfl : depth' = c.depth := hdepth'
      rfl

theorem advance_of_behind (h : Behind c [t] c') : advance c = .ok () c' := by
  obtain rfl := h.current_eq
  exact (advance_eq_ok_iff h.endsOnce (h.notEnd _ (by simp))).2 h

/-- Whatever follows a step that goes on starts behind the current token. -/
theorem exists_behind_of_advance {α : Type} {next : Unit → Parse α} {a : α}
    (hends : EndsOnce c.tokens) (hkind : c.current.kind ≠ .endOfInput)
    (h : (advance >>= next) c = .ok a c') :
    ∃ m, Behind c [c.current] m ∧ next () m = .ok a c' := by
  obtain ⟨_, m, hadvance, hnext⟩ := bind_eq_ok_iff.1 h
  exact ⟨m, (advance_eq_ok_iff hends hkind).1 hadvance, hnext⟩

/-- A token is taken if it is of the kind, and else nothing happens. -/
theorem eat_eq_ok_iff {kind : TokenKind} (hends : EndsOnce c.tokens) (hkind : kind ≠ .endOfInput)
    {b : Bool} : eat kind c = .ok b c' ↔
      (b = true ∧ ∃ t, t.kind = kind ∧ Behind c [t] c') ∨
        (b = false ∧ c.current.kind ≠ kind ∧ c = c') := by
  rw [eat_eq]
  by_cases h : c.current.kind = kind
  · have hadvance : advance c = .ok () c' ↔ _ := advance_eq_ok_iff hends (h ▸ hkind)
    simp only [h, decide_true, if_true, bind_eq_ok_iff, pure_eq_ok_iff]
    constructor
    · rintro ⟨_, m, hm, rfl, rfl⟩
      exact .inl ⟨rfl, _, h, hadvance.1 hm⟩
    · rintro (⟨rfl, t, -, ht⟩ | ⟨-, hne, -⟩)
      · exact ⟨(), c', advance_of_behind ht, rfl, rfl⟩
      · exact absurd rfl hne
  · simp only [h, decide_false, Bool.false_eq_true, if_false, pure_eq_ok_iff]
    constructor
    · rintro ⟨rfl, rfl⟩
      exact .inr ⟨rfl, h, rfl⟩
    · rintro (⟨-, t, ht, hbehind⟩ | ⟨rfl, -, rfl⟩)
      · exact absurd (hbehind.current_eq ▸ ht) h
      · exact ⟨rfl, rfl⟩

theorem eat_of_behind {kind : TokenKind} (ht : t.kind = kind) (h : Behind c [t] c') :
    eat kind c = .ok true c' :=
  (eat_eq_ok_iff h.endsOnce (ht ▸ h.notEnd t (by simp))).2 (.inl ⟨rfl, t, ht, h⟩)

theorem eat_of_ne {kind : TokenKind} (h : c.current.kind ≠ kind) : eat kind c = .ok false c := by
  rw [eat_eq]
  simp only [h, decide_false, Bool.false_eq_true, if_false]
  rfl

/-- A step that takes a token of one kind or else fails. -/
theorem eatOrFail_eq_ok_iff {kind : TokenKind} {otherwise : Parse Unit}
    (hends : EndsOnce c.tokens) (hkind : kind ≠ .endOfInput)
    (hfails : ∀ c c', otherwise c ≠ .ok () c') :
    (do unless ← eat kind do otherwise : Parse Unit) c = .ok () c' ↔
      ∃ t, t.kind = kind ∧ Behind c [t] c' := by
  rw [bind_eq_ok_iff]
  constructor
  · rintro ⟨b, m, heat, h⟩
    rcases (eat_eq_ok_iff hends hkind).1 heat with ⟨rfl, t, ht, hbehind⟩ | ⟨rfl, -, rfl⟩
    · obtain ⟨-, rfl⟩ := pure_eq_ok_iff.1 h
      exact ⟨t, ht, hbehind⟩
    · exact absurd h (hfails _ _)
  · rintro ⟨t, ht, hbehind⟩
    exact ⟨true, c', eat_of_behind ht hbehind, rfl⟩

theorem expect_eq_ok_iff {mark : Mark} (hends : EndsOnce c.tokens) :
    expect mark c = .ok () c' ↔ ∃ t, t.kind = .mark mark ∧ Behind c [t] c' :=
  eatOrFail_eq_ok_iff hends nofun fun _ _ => missing_ne_ok

theorem expectKeyword_eq_ok_iff {keyword : String} (hends : EndsOnce c.tokens) :
    expectKeyword keyword c = .ok () c' ↔ ∃ t, t.kind = .word keyword ∧ Behind c [t] c' :=
  eatOrFail_eq_ok_iff hends nofun fun _ _ => missing_ne_ok

theorem expectWord_eq_ok_iff {what text : String} (hends : EndsOnce c.tokens) :
    expectWord what c = .ok text c' ↔ ∃ t, t.kind = .word text ∧ Behind c [t] c' := by
  rw [expectWord, current_bind]
  constructor
  · intro h
    cases hkind : c.current.kind with
    | word text' =>
      rw [hkind] at h
      obtain ⟨_, m, hm, hpure⟩ := bind_eq_ok_iff.1 h
      obtain ⟨rfl, rfl⟩ := pure_eq_ok_iff.1 hpure
      exact ⟨_, hkind, (advance_eq_ok_iff hends (by simp [hkind])).1 hm⟩
    | _ =>
      rw [hkind] at h
      exact absurd h missing_ne_ok
  · rintro ⟨t, ht, hbehind⟩
    rw [hbehind.current_eq, ht]
    exact bind_eq_ok_iff.2 ⟨(), c', advance_of_behind hbehind, rfl⟩

end Parse

/-! ## Steps that read phrases -/

/-- At a depth of open types and values, a step reads the phrases `P`, if they are followed
by a token whose kind fulfills `follow`. -/
structure Reads {α : Type} (depth : Nat) (step : Parse α) (P : Phrases α)
    (follow : TokenKind → Prop) : Prop where
  sound : ∀ {c a c'}, EndsOnce c.tokens → c.depth = depth → step c = .ok a c' →
    ∃ ts, P ts a ∧ Behind c ts c'
  complete : ∀ {c ts a c'}, c.depth = depth → P ts a → Behind c ts c' →
    follow c'.current.kind → step c = .ok a c'

/-- Every phrase starts with a token of a kind that fulfills `start`. -/
def StartsWith {α : Type} (P : Phrases α) (start : TokenKind → Prop) : Prop :=
  ∀ ts a, P ts a → ∃ t us, ts = t :: us ∧ start t.kind

namespace Reads

open Parse

variable {α : Type} {depth : Nat} {step : Parse α} {P : Phrases α} {follow : TokenKind → Prop}
variable {kind : TokenKind} {c c' : Cursor} {a : α} {as : List α} {ts : List Token}

theorem of_iff (h : ∀ {c a c'}, EndsOnce c.tokens → c.depth = depth →
    (step c = .ok a c' ↔ ∃ ts, P ts a ∧ Behind c ts c')) : Reads depth step P follow :=
  ⟨fun hends hdepth hstep => (h hends hdepth).1 hstep,
    fun hdepth hphrase hbehind _ => (h hbehind.endsOnce hdepth).2 ⟨_, hphrase, hbehind⟩⟩

theorem expectWord (what : String) : Reads depth (expectWord what) IsWord follow :=
  of_iff fun hends _ => by
    rw [expectWord_eq_ok_iff hends]
    constructor
    · rintro ⟨t, ht, hbehind⟩
      exact ⟨[t], .word ht, hbehind⟩
    · rintro ⟨_, ⟨ht⟩, hbehind⟩
      exact ⟨_, ht, hbehind⟩

/-! ### Parts of a step -/

protected theorem pure (a : α) :
    Reads depth (pure a) (fun ts b => ts = [] ∧ a = b) fun _ => True where
  sound hends _ hstep := by
    obtain ⟨rfl, rfl⟩ := pure_eq_ok_iff.1 hstep
    exact ⟨[], ⟨rfl, rfl⟩, .refl hends⟩
  complete := by
    rintro c _ _ c' - ⟨rfl, rfl⟩ hbehind -
    exact pure_eq_ok_iff.2 ⟨rfl, hbehind.eq_of_nil⟩

/-- What has been taken is read in some other way, which takes no token. -/
protected theorem ofReading (r : Reading α) :
    Reads depth (ofReading r) (fun ts a => ts = [] ∧ r = .ok a) fun _ => True where
  sound hends _ hstep := by
    obtain ⟨hr, rfl⟩ := ofReading_eq_ok_iff.1 hstep
    exact ⟨[], ⟨rfl, hr⟩, .refl hends⟩
  complete := by
    rintro c _ _ c' - ⟨rfl, hr⟩ hbehind -
    exact ofReading_eq_ok_iff.2 ⟨hr, hbehind.eq_of_nil⟩

protected theorem map {β : Type} (f : α → β) (h : Reads depth step P follow) :
    Reads depth (step >>= fun a => pure (f a)) (fun ts b => ∃ a, P ts a ∧ f a = b)
      follow where
  sound hends hdepth hstep := by
    obtain ⟨a, m, ha, hstep⟩ := bind_eq_ok_iff.1 hstep
    obtain ⟨rfl, rfl⟩ := pure_eq_ok_iff.1 hstep
    obtain ⟨ts, hts, hbehind⟩ := h.sound hends hdepth ha
    exact ⟨ts, ⟨a, hts, rfl⟩, hbehind⟩
  complete := by
    rintro c ts _ c' hdepth ⟨a, hts, rfl⟩ hbehind hfollow
    exact bind_of_ok (h.complete hdepth hts hbehind hfollow)

/-- What is behind the current token is a phrase. -/
theorem sound_advance (h : Reads depth step P follow) (hends : EndsOnce c.tokens)
    (hdepth : c.depth = depth) (hkind : c.current.kind ≠ .endOfInput)
    (hstep : (advance >>= fun _ => step) c = .ok a c') :
    ∃ ts, P ts a ∧ Behind c (c.current :: ts) c' := by
  obtain ⟨m, hfirst, hstep⟩ := exists_behind_of_advance hends hkind hstep
  obtain ⟨ts, hts, hrest⟩ := h.sound hfirst.endsOnce' (hfirst.depth.trans hdepth) hstep
  exact ⟨ts, hts, hfirst.trans hrest⟩

theorem complete_advance (h : Reads depth step P follow) {t : Token} (hdepth : c.depth = depth)
    (hphrase : P ts a) (hbehind : Behind c (t :: ts) c') (hfollow : follow c'.current.kind) :
    (advance >>= fun _ => step) c = .ok a c' := by
  obtain ⟨m, hfirst, hrest⟩ := hbehind.split_cons
  rw [bind_of_ok (advance_of_behind hfirst)]
  exact h.complete (hfirst.depth.trans hdepth) hphrase hrest hfollow

/-! ### While a token comes -/

theorem sound_whileSeeing (hsound : ∀ {c a c'}, EndsOnce c.tokens → c.depth = depth →
      c.current.kind = kind → step c = .ok a c' → ∃ ts, P ts a ∧ Behind c ts c') {rounds : Nat}
    (hends : EndsOnce c.tokens) (hdepth : c.depth = depth)
    (hstep : whileSeeing kind step rounds c = .ok as c') :
    ∃ ts, Repeated P ts as ∧ Behind c ts c' := by
  induction rounds generalizing c as with
  | zero =>
    obtain ⟨rfl, rfl⟩ := pure_eq_ok_iff.1 hstep
    exact ⟨[], .nil, .refl hends⟩
  | succ rounds ih =>
    rw [whileSeeing_succ] at hstep
    split at hstep
    · -- one phrase is taken, and the rounds left take the others
      rename_i hkind
      obtain ⟨a, m, ha, hstep⟩ := bind_eq_ok_iff.1 hstep
      obtain ⟨as', m', has, hstep⟩ := bind_eq_ok_iff.1 hstep
      obtain ⟨rfl, rfl⟩ := pure_eq_ok_iff.1 hstep
      obtain ⟨ts, hts, hbehind⟩ := hsound hends hdepth (by simpa using hkind) ha
      obtain ⟨us, hus, hbehind'⟩ := ih hbehind.endsOnce' (hbehind.depth.trans hdepth) has
      exact ⟨ts ++ us, .cons hts hus, hbehind.trans hbehind'⟩
    · obtain ⟨rfl, rfl⟩ := pure_eq_ok_iff.1 hstep
      exact ⟨[], .nil, .refl hends⟩

theorem complete_whileSeeing (hcomplete : ∀ {c ts a c'}, c.depth = depth → P ts a →
      Behind c ts c' → step c = .ok a c')
    (hstart : StartsWith P (· = kind)) {rounds : Nat} (hphrases : Repeated P ts as)
    (hrounds : c.ahead.length < rounds) (hdepth : c.depth = depth) (hbehind : Behind c ts c')
    (hfollow : c'.current.kind ≠ kind) : whileSeeing kind step rounds c = .ok as c' := by
  obtain ⟨rounds, rfl⟩ : ∃ n, rounds = n + 1 := ⟨rounds - 1, by omega⟩
  induction hphrases generalizing c rounds with
  | nil =>
    obtain rfl := hbehind.eq_of_nil
    rw [whileSeeing_succ]
    simp [hfollow]
  | cons hhead htail ih =>
    -- the first phrase has a token, so the rounds left are enough for the others
    obtain ⟨t, us, rfl, hkind⟩ := hstart _ _ hhead
    obtain ⟨m, hfirst, hrest⟩ := hbehind.split
    have hless := hfirst.length_lt
    obtain ⟨rounds, rfl⟩ : ∃ n, rounds = n + 1 := ⟨rounds - 1, by omega⟩
    rw [whileSeeing_succ, hfirst.current_eq]
    simp only [hkind, decide_true, if_true]
    rw [bind_of_ok (hcomplete hdepth hhead hfirst),
      bind_of_ok (ih (hfirst.depth.trans hdepth) hrest rounds (by omega))]
    rfl

/-- A repetition while a token comes reads phrases that start with the token.  The step is
only used when the token is there. -/
theorem whileSeeing (hsound : ∀ {c a c'}, EndsOnce c.tokens → c.depth = depth →
      c.current.kind = kind → step c = .ok a c' → ∃ ts, P ts a ∧ Behind c ts c')
    (hcomplete : ∀ {c ts a c'}, c.depth = depth → P ts a → Behind c ts c' → step c = .ok a c')
    (hstart : StartsWith P (· = kind)) :
    Reads depth (withRounds (whileSeeing kind step)) (Repeated P) (· ≠ kind) where
  sound hends hdepth hstep := sound_whileSeeing hsound hends hdepth hstep
  complete hdepth hphrases hbehind hfollow :=
    complete_whileSeeing hcomplete hstart hphrases (Nat.lt_succ_self _) hdepth hbehind hfollow

/-! ### Until a token comes -/

theorem sound_untilSeeing (h : Reads depth step P follow) {rounds : Nat}
    (hends : EndsOnce c.tokens) (hdepth : c.depth = depth)
    (hstep : untilSeeing kind step rounds c = .ok as c') :
    ∃ ts, Repeated P ts as ∧ Behind c ts c' := by
  induction rounds generalizing c as with
  | zero =>
    obtain ⟨rfl, rfl⟩ := pure_eq_ok_iff.1 hstep
    exact ⟨[], .nil, .refl hends⟩
  | succ rounds ih =>
    rw [untilSeeing_succ] at hstep
    split at hstep
    · obtain ⟨rfl, rfl⟩ := pure_eq_ok_iff.1 hstep
      exact ⟨[], .nil, .refl hends⟩
    · obtain ⟨a, m, ha, hstep⟩ := bind_eq_ok_iff.1 hstep
      obtain ⟨as', m', has, hstep⟩ := bind_eq_ok_iff.1 hstep
      obtain ⟨rfl, rfl⟩ := pure_eq_ok_iff.1 hstep
      obtain ⟨ts, hts, hbehind⟩ := h.sound hends hdepth ha
      obtain ⟨us, hus, hbehind'⟩ := ih hbehind.endsOnce' (hbehind.depth.trans hdepth) has
      exact ⟨ts ++ us, .cons hts hus, hbehind.trans hbehind'⟩

theorem complete_untilSeeing (h : Reads depth step P fun _ => True)
    (hstart : StartsWith P (· ≠ kind)) {rounds : Nat} (hphrases : Repeated P ts as)
    (hrounds : c.ahead.length < rounds) (hdepth : c.depth = depth) (hbehind : Behind c ts c')
    (hfollow : c'.current.kind = kind) : untilSeeing kind step rounds c = .ok as c' := by
  obtain ⟨rounds, rfl⟩ : ∃ n, rounds = n + 1 := ⟨rounds - 1, by omega⟩
  induction hphrases generalizing c rounds with
  | nil =>
    obtain rfl := hbehind.eq_of_nil
    rw [untilSeeing_succ]
    simp [hfollow]
  | cons hhead htail ih =>
    obtain ⟨t, us, rfl, hkind⟩ := hstart _ _ hhead
    obtain ⟨m, hfirst, hrest⟩ := hbehind.split
    have hless := hfirst.length_lt
    obtain ⟨rounds, rfl⟩ : ∃ n, rounds = n + 1 := ⟨rounds - 1, by omega⟩
    rw [untilSeeing_succ, hfirst.current_eq]
    simp only [hkind, decide_false, Bool.false_eq_true, if_false]
    rw [bind_of_ok (h.complete hdepth hhead hfirst trivial),
      bind_of_ok (ih (hfirst.depth.trans hdepth) hrest rounds (by omega))]
    rfl

/-- A repetition until a token comes reads phrases that do not start with the token. -/
theorem untilSeeing (h : Reads depth step P fun _ => True) (hstart : StartsWith P (· ≠ kind)) :
    Reads depth (withRounds (untilSeeing kind step)) (Repeated P) (· = kind) where
  sound hends hdepth hstep := h.sound_untilSeeing hends hdepth hstep
  complete hdepth hphrases hbehind hfollow :=
    h.complete_untilSeeing hstart hphrases (Nat.lt_succ_self _) hdepth hbehind hfollow

/-! ### With commas -/

/-- Behind a phrase either a comma and the rest of a list stand, or nothing. -/
theorem sound_commaBehind (h : Reads depth step P follow) {rest : Parse (List α)}
    (hends : EndsOnce c.tokens) (hdepth : c.depth = depth)
    (hstep : (step >>= fun a => eat (.mark .comma) >>= fun more =>
      if more then rest >>= fun as => pure (a :: as) else pure [a]) c = .ok as c') :
    ∃ ts a m, P ts a ∧ Behind c ts m ∧ ((as = [a] ∧ m = c') ∨
      ∃ t m' as', t.kind = .mark .comma ∧ Behind m [t] m' ∧ rest m' = .ok as' c' ∧
        as = a :: as') := by
  obtain ⟨a, m, ha, hstep⟩ := bind_eq_ok_iff.1 hstep
  obtain ⟨b, m', hb, hstep⟩ := bind_eq_ok_iff.1 hstep
  obtain ⟨ts, hts, hbehind⟩ := h.sound hends hdepth ha
  rcases (eat_eq_ok_iff hbehind.endsOnce' (by simp)).1 hb with
    ⟨rfl, t, ht, hcomma⟩ | ⟨rfl, -, rfl⟩
  · obtain ⟨as', m'', has, hstep⟩ := bind_eq_ok_iff.1 hstep
    obtain ⟨rfl, rfl⟩ := pure_eq_ok_iff.1 hstep
    exact ⟨ts, a, m, hts, hbehind, .inr ⟨t, m', as', ht, hcomma, has, rfl⟩⟩
  · obtain ⟨rfl, rfl⟩ := pure_eq_ok_iff.1 hstep
    exact ⟨ts, a, m, hts, hbehind, .inl ⟨rfl, rfl⟩⟩

theorem sound_untilSeeingCommas (h : Reads depth step P follow) {rounds : Nat}
    (hends : EndsOnce c.tokens) (hdepth : c.depth = depth)
    (hstep : untilSeeingCommas kind step rounds c = .ok as c') :
    ∃ ts, Listed P ts as ∧ Behind c ts c' := by
  induction rounds generalizing c as with
  | zero =>
    obtain ⟨rfl, rfl⟩ := pure_eq_ok_iff.1 hstep
    exact ⟨[], .nil, .refl hends⟩
  | succ rounds ih =>
    rw [untilSeeingCommas_succ] at hstep
    split at hstep
    · obtain ⟨rfl, rfl⟩ := pure_eq_ok_iff.1 hstep
      exact ⟨[], .nil, .refl hends⟩
    · obtain ⟨ts, a, m, hts, hbehind, ⟨rfl, rfl⟩ | ⟨t, m', as', ht, hcomma, has, rfl⟩⟩ :=
        h.sound_commaBehind hends hdepth hstep
      · exact ⟨ts, .one hts, hbehind⟩
      · -- behind a comma the list goes on, perhaps with nothing
        obtain ⟨us, hus, hrest⟩ :=
          ih hcomma.endsOnce' (hcomma.depth.trans (hbehind.depth.trans hdepth)) has
        exact ⟨ts ++ t :: us, .cons hts ht hus, hbehind.trans (hcomma.trans hrest)⟩

theorem complete_untilSeeingCommas (h : Reads depth step P follow) (hcomma : follow (.mark .comma))
    (hend : follow kind) (hne : kind ≠ .mark .comma) (hstart : StartsWith P (· ≠ kind))
    {rounds : Nat} (hphrases : Listed P ts as) (hrounds : c.ahead.length < rounds)
    (hdepth : c.depth = depth) (hbehind : Behind c ts c') (hfollow : c'.current.kind = kind) :
    untilSeeingCommas kind step rounds c = .ok as c' := by
  obtain ⟨rounds, rfl⟩ : ∃ n, rounds = n + 1 := ⟨rounds - 1, by omega⟩
  induction hphrases generalizing c rounds with
  | nil =>
    obtain rfl := hbehind.eq_of_nil
    rw [untilSeeingCommas_succ]
    simp [hfollow]
  | one hhead =>
    obtain ⟨t, us, rfl, hkind⟩ := hstart _ _ hhead
    rw [untilSeeingCommas_succ, hbehind.current_eq]
    simp only [hkind, decide_false, Bool.false_eq_true, if_false]
    rw [bind_of_ok (h.complete hdepth hhead hbehind (hfollow ▸ hend)),
      bind_of_ok (eat_of_ne (hfollow ▸ hne))]
    rfl
  | cons hhead hkind' htail ih =>
    obtain ⟨t, us, rfl, hkind⟩ := hstart _ _ hhead
    obtain ⟨m, hfirst, hrest⟩ := hbehind.split
    obtain ⟨m', hmark, hrest⟩ := hrest.split_cons
    have hless := hfirst.length_lt
    have hless' := hmark.length_lt
    obtain ⟨rounds, rfl⟩ : ∃ n, rounds = n + 1 := ⟨rounds - 1, by omega⟩
    rw [untilSeeingCommas_succ, hfirst.current_eq]
    simp only [hkind, decide_false, Bool.false_eq_true, if_false]
    have hdepth' := hmark.depth.trans (hfirst.depth.trans hdepth)
    rw [bind_of_ok (h.complete hdepth hhead hfirst (hmark.current_eq ▸ hkind' ▸ hcomma)),
      bind_of_ok (eat_of_behind hkind' hmark)]
    simp only [if_true]
    rw [bind_of_ok (ih hdepth' hrest rounds (by omega))]
    rfl

/-- Items up to a closing mark are listed phrases and the mark. -/
theorem items (close : Mark) (h : Reads depth step P follow) (hcomma : follow (.mark .comma))
    (hclose : follow (.mark close)) (hne : close ≠ .comma)
    (hstart : StartsWith P (· ≠ .mark close)) :
    Reads depth (items close step)
      (fun us as => ∃ ts t, us = ts ++ [t] ∧ Listed P ts as ∧ t.kind = .mark close)
      fun _ => True := by
  constructor
  · intro c as c' hends hdepth hstep
    obtain ⟨as', m, has, hstep⟩ := bind_eq_ok_iff.1 hstep
    obtain ⟨_, m', hmark, hstep⟩ := bind_eq_ok_iff.1 hstep
    obtain ⟨rfl, rfl⟩ := pure_eq_ok_iff.1 hstep
    obtain ⟨ts, hts, hbehind⟩ := h.sound_untilSeeingCommas hends hdepth has
    obtain ⟨t, ht, hbehind'⟩ := (expect_eq_ok_iff hbehind.endsOnce').1 hmark
    exact ⟨ts ++ [t], ⟨ts, t, rfl, hts, ht⟩, hbehind.trans hbehind'⟩
  · rintro c _ as c' hdepth ⟨ts, t, rfl, hts, ht⟩ hbehind -
    obtain ⟨m, hfirst, hmark⟩ := hbehind.split
    have hitems : withRounds (untilSeeingCommas (.mark close) step) c = .ok as m :=
      h.complete_untilSeeingCommas hcomma hclose (by simpa using hne) hstart hts
        (Nat.lt_succ_self _) hdepth hfirst (hmark.current_eq ▸ ht)
    refine (bind_of_ok hitems).trans ?_
    rw [bind_of_ok ((expect_eq_ok_iff hmark.endsOnce).2 ⟨t, ht, hmark⟩)]
    rfl

/-- A step between two marks. -/
theorem enclosed {β : Type} (f : α → β) (opens closes : Mark) (h : Reads depth step P follow)
    (hcloses : follow (.mark closes)) :
    Reads depth (do
        Parse.expect opens
        let a ← step
        Parse.expect closes
        return f a)
      (fun us b => ∃ o ts t a, us = o :: (ts ++ [t]) ∧ o.kind = .mark opens ∧ P ts a
        ∧ t.kind = .mark closes ∧ f a = b)
      fun _ => True := by
  constructor
  · intro c b c' hends hdepth hstep
    obtain ⟨_, c₁, hopen, hstep⟩ := bind_eq_ok_iff.1 hstep
    obtain ⟨a, c₂, ha, hstep⟩ := bind_eq_ok_iff.1 hstep
    obtain ⟨_, c₃, hclose, hstep⟩ := bind_eq_ok_iff.1 hstep
    obtain ⟨rfl, rfl⟩ := pure_eq_ok_iff.1 hstep
    obtain ⟨o, ho, hfirst⟩ := (expect_eq_ok_iff hends).1 hopen
    obtain ⟨ts, hts, hrest⟩ := h.sound hfirst.endsOnce' (hfirst.depth.trans hdepth) ha
    obtain ⟨t, ht, hlast⟩ := (expect_eq_ok_iff hrest.endsOnce').1 hclose
    exact ⟨_, ⟨o, ts, t, a, rfl, ho, hts, ht, rfl⟩, hfirst.trans (hrest.trans hlast)⟩
  · rintro c _ b c' hdepth ⟨o, ts, t, a, rfl, ho, hts, ht, rfl⟩ hbehind -
    obtain ⟨c₁, hfirst, hbehind⟩ := hbehind.split_cons
    obtain ⟨c₂, hrest, hlast⟩ := hbehind.split
    rw [bind_of_ok ((expect_eq_ok_iff hfirst.endsOnce).2 ⟨o, ho, hfirst⟩),
      bind_of_ok (h.complete (hfirst.depth.trans hdepth) hts hrest
        (hlast.current_eq ▸ ht ▸ hcloses)),
      bind_of_ok ((expect_eq_ok_iff hrest.endsOnce').2 ⟨t, ht, hlast⟩)]
    rfl

theorem sound_betweenCommas (h : Reads depth step P follow) {rounds : Nat}
    (hrounds : c.ahead.length < rounds) (hends : EndsOnce c.tokens) (hdepth : c.depth = depth)
    (hstep : betweenCommas step rounds c = .ok as c') :
    ∃ ts, Separated P ts as ∧ Behind c ts c' := by
  obtain ⟨rounds, rfl⟩ : ∃ n, rounds = n + 1 := ⟨rounds - 1, by omega⟩
  induction rounds generalizing c as with
  | zero =>
    obtain ⟨ts, a, m, hts, hbehind, ⟨rfl, rfl⟩ | ⟨t, m', as', ht, hcomma, has, rfl⟩⟩ :=
      h.sound_commaBehind hends hdepth hstep
    · exact ⟨ts, .one hts, hbehind⟩
    · -- there is no token left for the comma
      have hfirst := hbehind.length_eq
      have hless := hcomma.length_lt
      omega
  | succ rounds ih =>
    obtain ⟨ts, a, m, hts, hbehind, ⟨rfl, rfl⟩ | ⟨t, m', as', ht, hcomma, has, rfl⟩⟩ :=
      h.sound_commaBehind hends hdepth hstep
    · exact ⟨ts, .one hts, hbehind⟩
    · have hfirst := hbehind.length_eq
      have hless := hcomma.length_lt
      obtain ⟨us, hus, hrest⟩ :=
        ih hcomma.endsOnce' (hcomma.depth.trans (hbehind.depth.trans hdepth)) (by omega) has
      exact ⟨ts ++ t :: us, .cons hts ht hus, hbehind.trans (hcomma.trans hrest)⟩

theorem complete_betweenCommas (h : Reads depth step P follow) (hcomma : follow (.mark .comma))
    {rounds : Nat} (hphrases : Separated P ts as) (hrounds : c.ahead.length < rounds)
    (hdepth : c.depth = depth) (hbehind : Behind c ts c') (hfollow : follow c'.current.kind)
    (hne : c'.current.kind ≠ .mark .comma) : betweenCommas step rounds c = .ok as c' := by
  obtain ⟨rounds, rfl⟩ : ∃ n, rounds = n + 1 := ⟨rounds - 1, by omega⟩
  induction hphrases generalizing c rounds with
  | one hhead =>
    rw [betweenCommas_succ, bind_of_ok (h.complete hdepth hhead hbehind hfollow),
      bind_of_ok (eat_of_ne hne)]
    rfl
  | cons hhead hkind htail ih =>
    obtain ⟨m, hfirst, hrest⟩ := hbehind.split
    obtain ⟨m', hmark, hrest⟩ := hrest.split_cons
    have hlength := hfirst.length_eq
    have hless := hmark.length_lt
    obtain ⟨rounds, rfl⟩ : ∃ n, rounds = n + 1 := ⟨rounds - 1, by omega⟩
    have hdepth' := hmark.depth.trans (hfirst.depth.trans hdepth)
    rw [betweenCommas_succ, bind_of_ok (h.complete hdepth hhead hfirst
      (hmark.current_eq ▸ hkind ▸ hcomma)), bind_of_ok (eat_of_behind hkind hmark)]
    simp only [if_true]
    rw [bind_of_ok (ih hdepth' hrest rounds (by omega))]
    rfl

/-- A repetition as long as commas follow reads separated phrases. -/
theorem betweenCommas (h : Reads depth step P follow) (hcomma : follow (.mark .comma)) :
    Reads depth (withRounds (betweenCommas step)) (Separated P)
      fun kind => follow kind ∧ kind ≠ .mark .comma where
  sound hends hdepth hstep := h.sound_betweenCommas (Nat.lt_succ_self _) hends hdepth hstep
  complete hdepth hphrases hbehind hfollow :=
    h.complete_betweenCommas hcomma hphrases (Nat.lt_succ_self _) hdepth hbehind hfollow.1
      hfollow.2

/-! ### One level deeper -/

/-- A step one level deeper reads the same phrases, if the level is allowed. -/
theorem nested {nesting : Nesting} (h : Reads (depth + 1) step P follow)
    (hdepth : depth < maxNesting) : Reads depth (nested nesting step) P follow := by
  constructor
  · intro c a c' hends hc hstep
    rw [nested_of_lt (by omega)] at hstep
    -- the step runs one level deeper, and the level is given back behind it
    cases hinner : step { c with depth := c.depth + 1 } with
    | error e m => simp [hinner] at hstep
    | ok b m =>
      simp only [hinner] at hstep
      obtain ⟨rfl, rfl⟩ := EStateM.Result.ok.inj hstep
      obtain ⟨ts, hts, hbehind⟩ :=
        h.sound (c := { c with depth := c.depth + 1 }) hends (by simp [hc]) hinner
      refine ⟨ts, hts, hends, hbehind.tokens, ?_⟩
      have hsame : m.depth = c.depth + 1 := hbehind.depth
      simp [hsame]
  · intro c ts a c' hc hphrase hbehind hfollow
    have hinner : step { c with depth := c.depth + 1 } = .ok a { c' with depth := c.depth + 1 } :=
      h.complete (by simp [hc]) hphrase ⟨hbehind.endsOnce, hbehind.tokens, rfl⟩ hfollow
    have hsame : c'.depth = c.depth := hbehind.depth
    rw [nested_of_lt (by omega)]
    simp only [hinner]
    rw [Nat.add_sub_cancel, ← hsame]

/-- No step succeeds below the deepest level. -/
theorem nested_ne_ok {nesting : Nesting} (h : maxNesting ≤ c.depth) :
    Parse.nested nesting step c ≠ .ok a c' := by
  rw [nested_of_le h]
  exact fail_ne_ok

/-- A step for each number of levels that are left, of which the last one fails at once and
every other one reads phrases around those of the one before.  Started with all levels, they
read the phrases of all levels. -/
theorem allLevels {parse : Nat → Parse α} {P : Nat → Phrases α} (hnone : ∀ ts a, ¬ P 0 ts a)
    (hdeepest : ∀ {c a c'}, maxNesting ≤ c.depth → parse 1 c ≠ .ok a c')
    (hdeeper : ∀ {depth levels}, Reads (depth + 1) (parse (levels + 1)) (P levels) (fun _ => True) →
      depth < maxNesting →
        Reads depth (parse (levels + 1 + 1)) (P (levels + 1)) fun _ => True) :
    Reads 0 (fun c => parse (maxNesting + 1 - c.depth) c) (P maxNesting) fun _ => True := by
  -- with `levels` levels left the depth is that many below the deepest one
  have hlevels : ∀ levels ≤ maxNesting,
      Reads (maxNesting - levels) (parse (levels + 1)) (P levels) fun _ => True := by
    intro levels
    induction levels with
    | zero =>
      intro _
      constructor
      · intro c a c' _ hc hstep
        exact absurd hstep (hdeepest (by omega))
      · intro c ts a c' _ hphrase
        exact absurd hphrase (hnone ts a)
    | succ levels ih =>
      intro hle
      have hbelow : maxNesting - (levels + 1) + 1 = maxNesting - levels := by omega
      exact hdeeper (hbelow ▸ ih (by omega)) (by omega)
  have h := hlevels maxNesting (Nat.le_refl _)
  rw [Nat.sub_self] at h
  constructor
  · intro c a c' hends hc hstep
    rw [hc] at hstep
    exact h.sound hends hc hstep
  · intro c ts a c' hc hphrase hbehind hfollow
    rw [hc]
    exact h.complete hc hphrase hbehind hfollow

end Reads

end IdlCompiler.Idl
