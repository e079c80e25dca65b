/-
# Tokens pay for the steps of the parser

An amortized count of the elementary steps of the parser.  A step is *paid* at a cursor
(`Paid`) if it stops behind some tokens, whether it succeeds or fails, and these tokens pay
for its elementary steps up to a number that it owes: a negative one, if the tokens pay for
more.  So a step that owes less than nothing when it succeeds must have taken a token.

There is one rule for each way to build a step, and one lemma for each procedure of the
parser, which applies the rules in the order of its steps and adds up what they owe.
-/
import IdlCompiler.Proofs.CountedSteps

namespace IdlCompiler.Idl

/-- How many elementary steps a token pays for. -/
def stepsPerToken : Nat := 8

/-- Started at the cursor `c`, a counted step stops behind some tokens, which pay for its
elementary steps up to what it owes: `owed` for its result, and `lost` after an error. -/
structure Paid {α : Type} (c : Cursor) (x : Counted α) (owed : α → Int) (lost : Int) : Prop where
  ok : ∀ {a c'}, x.run c = .ok a c' →
    ∃ ts, Behind c ts c' ∧ (x.cost c : Int) ≤ stepsPerToken * ts.length + owed a
  error : ∀ {e c'}, x.run c = .error e c' →
    ∃ ts, Behind c ts c' ∧ (x.cost c : Int) ≤ stepsPerToken * ts.length + lost

namespace Parse

variable {α β : Type} {c c' m : Cursor} {e : ReadError}

theorem bind_eq_error_iff {x : Parse α} {f : α → Parse β} :
    (x >>= f) c = .error e c' ↔
      x c = .error e c' ∨ ∃ a m, x c = .ok a m ∧ f a m = .error e c' := by
  change EStateM.bind x f c = _ ↔ _
  rw [EStateM.bind]
  cases x c with
  | ok a m =>
    constructor
    · exact fun h => .inr ⟨a, m, rfl, h⟩
    · rintro (h | ⟨a', m', heq, h⟩)
      · exact nomatch h
      · obtain ⟨rfl, rfl⟩ := EStateM.Result.ok.inj heq
        exact h
  | error e m => simp

theorem map_eq_error_iff {f : α → β} {x : Parse α} :
    (f <$> x) c = .error e c' ↔ x c = .error e c' := by
  change EStateM.map f x c = _ ↔ _
  rw [EStateM.map]
  cases x c with
  | ok a m => simp
  | error e m => simp

/-- Only what follows a success matters behind a step. -/
theorem bind_congr_ok {x : Parse α} {f g : α → Parse β}
    (h : ∀ a c', x c = .ok a c' → f a c' = g a c') : (x >>= f) c = (x >>= g) c := by
  change EStateM.bind x f c = EStateM.bind x g c
  rw [EStateM.bind, EStateM.bind]
  cases hx : x c with
  | ok a m => exact h a m hx
  | error e m => rfl

theorem current_apply : current c = .ok c.current c := rfl

theorem check_apply {kind : TokenKind} : check kind c = .ok (c.current.kind = kind) c := rfl

theorem pure_ne_error {a : α} : (pure a : Parse α) c ≠ .error e c' := nofun

theorem throw_eq_error {e' : ReadError} (h : (throw e' : Parse α) c = .error e c') : c' = c :=
  (EStateM.Result.error.inj h).2.symm

theorem fail_eq_error {fault : Fault} (h : (fail fault : Parse α) c = .error e c') : c' = c :=
  (EStateM.Result.error.inj h).2.symm

theorem unexpected_eq_error {expected : String}
    (h : (unexpected expected : Parse α) c = .error e c') : c' = c :=
  (EStateM.Result.error.inj h).2.symm

theorem missing_eq_error {expected : String} (h : (missing expected : Parse α) c = .error e c') :
    c' = c := by
  rw [missing, current_bind] at h
  split at h
  · exact throw_eq_error h
  · exact unexpected_eq_error h

theorem ofReading_eq_error {r : Reading α} (h : ofReading r c = .error e c') : c' = c := by
  cases r with
  | ok a => exact nomatch h
  | error e' => exact throw_eq_error h

theorem advance_ne_error : advance c ≠ .error e c' := nofun

/-- Going on stays at the last token. -/
theorem exists_behind_advance (hends : EndsOnce c.tokens) (h : advance c = .ok () c') :
    ∃ ts, Behind c ts c' := by
  by_cases hkind : c.current.kind = .endOfInput
  · obtain ⟨ts, last, htokens, -, hts⟩ := id hends
    cases ts with
    | nil =>
      obtain ⟨current, ahead, depth⟩ := c
      obtain ⟨rfl, rfl⟩ : current = last ∧ ahead = [] := by simpa [Cursor.tokens] using htokens
      obtain ⟨-, rfl⟩ := EStateM.Result.ok.inj h
      exact ⟨[], .refl hends⟩
    | cons t ts =>
      obtain rfl : c.current = t := (List.cons.inj htokens).1
      exact absurd hkind (hts _ (by simp))
  · exact ⟨_, (advance_eq_ok_iff hends hkind).1 h⟩

theorem eat_ne_error {kind : TokenKind} : eat kind c ≠ .error e c' := by
  rw [eat_eq]
  split <;> nofun

theorem exists_behind_eat {kind : TokenKind} {b : Bool} (hends : EndsOnce c.tokens)
    (h : eat kind c = .ok b c') : ∃ ts, Behind c ts c' := by
  rw [eat_eq] at h
  split at h
  · obtain ⟨_, m, hadvance, hpure⟩ := bind_eq_ok_iff.1 h
    obtain ⟨-, rfl⟩ := pure_eq_ok_iff.1 hpure
    exact exists_behind_advance hends hadvance
  · obtain ⟨-, rfl⟩ := pure_eq_ok_iff.1 h
    exact ⟨[], .refl hends⟩

/-- A step that takes a token of one kind or else fails stays where it is if it fails. -/
theorem eatOrFail_eq_error {kind : TokenKind} {expected : String}
    (h : (do unless ← eat kind do missing expected : Parse Unit) c = .error e c') : c' = c := by
  rcases bind_eq_error_iff.1 h with heat | ⟨b, m, heat, hrest⟩
  · exact absurd heat eat_ne_error
  · cases b with
    | true => exact absurd hrest pure_ne_error
    | false =>
      obtain rfl := missing_eq_error hrest
      rw [eat_eq] at heat
      split at heat
      · obtain ⟨_, _, -, hpure⟩ := bind_eq_ok_iff.1 heat
        exact absurd (pure_eq_ok_iff.1 hpure).1 (by decide)
      · exact (pure_eq_ok_iff.1 heat).2.symm

theorem expectWord_eq_error {what : String} (h : expectWord what c = .error e c') : c' = c := by
  rw [expectWord, current_bind] at h
  cases hkind : c.current.kind with
  | word text =>
    rw [hkind] at h
    rcases bind_eq_error_iff.1 h with hadvance | ⟨_, _, -, hpure⟩
    · exact absurd hadvance advance_ne_error
    · exact absurd hpure pure_ne_error
  | _ =>
    rw [hkind] at h
    exact missing_eq_error h

theorem nested_eq_ok {nesting : Nesting} {step : Parse α} {a : α}
    (h : nested nesting step c = .ok a c') : c.depth < maxNesting ∧
      ∃ m, step { c with depth := c.depth + 1 } = .ok a m ∧
        c' = { m with depth := m.depth - 1 } := by
  by_cases hdeep : maxNesting ≤ c.depth
  · rw [nested_of_le hdeep] at h
    exact absurd h fail_ne_ok
  · rw [nested_of_lt (Nat.lt_of_not_le hdeep)] at h
    cases hstep : step { c with depth := c.depth + 1 } with
    | ok b m =>
      rw [hstep] at h
      obtain ⟨rfl, rfl⟩ := EStateM.Result.ok.inj h
      exact ⟨Nat.lt_of_not_le hdeep, m, rfl, rfl⟩
    | error e m => simp [hstep] at h

theorem nested_eq_error {nesting : Nesting} {step : Parse α}
    (h : nested nesting step c = .error e c') : maxNesting ≤ c.depth ∧ c' = c ∨
      c.depth < maxNesting ∧ ∃ m, step { c with depth := c.depth + 1 } = .error e m ∧
        c' = { m with depth := m.depth - 1 } := by
  by_cases hdeep : maxNesting ≤ c.depth
  · rw [nested_of_le hdeep] at h
    exact .inl ⟨hdeep, fail_eq_error h⟩
  · rw [nested_of_lt (Nat.lt_of_not_le hdeep)] at h
    cases hstep : step { c with depth := c.depth + 1 } with
    | ok b m => simp [hstep] at h
    | error e' m =>
      rw [hstep] at h
      obtain ⟨rfl, rfl⟩ := EStateM.Result.error.inj h
      exact .inr ⟨Nat.lt_of_not_le hdeep, m, rfl, rfl⟩

end Parse

/-- What is behind some tokens one level deeper is behind them when the level is given
back. -/
theorem Behind.shallower {c c' : Cursor} {ts : List Token}
    (h : Behind { c with depth := c.depth + 1 } ts c') :
    Behind c ts { c' with depth := c'.depth - 1 } := by
  have hdepth : c'.depth = c.depth + 1 := h.depth
  exact ⟨h.endsOnce, h.tokens, by simp [hdepth]⟩

namespace Paid

open Counted

variable {α β : Type} {c : Cursor} {x : Counted α} {f : α → Counted β}
variable {owed : α → Int} {owed' : β → Int} {lost lost' : Int}

/-! ## Rules -/

theorem mono {more : α → Int} (h : Paid c x owed lost) (howed : ∀ a, owed a ≤ more a)
    (hlost : lost ≤ lost') : Paid c x more lost' := by
  constructor
  · intro a c' ha
    obtain ⟨ts, hbehind, hcost⟩ := h.ok ha
    have hless := howed a
    exact ⟨ts, hbehind, by omega⟩
  · intro e c' he
    obtain ⟨ts, hbehind, hcost⟩ := h.error he
    exact ⟨ts, hbehind, by omega⟩

theorem pure {a : α} (hends : EndsOnce c.tokens) (howed : 0 ≤ owed a) :
    Paid c (pure a) owed lost := by
  constructor
  · intro b c' h
    obtain ⟨rfl, rfl⟩ := Parse.pure_eq_ok_iff.1 h
    exact ⟨[], .refl hends, by simpa [Pure.pure] using howed⟩
  · intro e c' h
    exact absurd h Parse.pure_ne_error

/-- What a step owes is added to what the steps that follow its success owe. -/
theorem bind_ok (hx : Paid c x owed lost) (hlost : lost ≤ lost')
    (hf : ∀ {a c'}, x.run c = .ok a c' → EndsOnce c'.tokens →
      Paid c' (f a) (fun b => owed' b - owed a) (lost' - owed a)) :
    Paid c (x >>= f) owed' lost' := by
  have hcost : ∀ {a m}, x.run c = .ok a m → (x >>= f).cost c = x.cost c + (f a).cost m :=
    fun ha => by simp [Bind.bind, ha]
  constructor
  · intro b c' h
    obtain ⟨a, m, ha, hb⟩ := Parse.bind_eq_ok_iff.1 h
    obtain ⟨ts, hbehind, hfirst⟩ := hx.ok ha
    obtain ⟨us, hbehind', hsecond⟩ := (hf ha hbehind.endsOnce').ok hb
    refine ⟨ts ++ us, hbehind.trans hbehind', ?_⟩
    rw [hcost ha]
    push_cast [List.length_append, Int.mul_add]
    omega
  · intro e c' h
    rcases Parse.bind_eq_error_iff.1 h with he | ⟨a, m, ha, he⟩
    · obtain ⟨ts, hbehind, hfirst⟩ := hx.error he
      have hnone : (x >>= f).cost c = x.cost c := by simp [Bind.bind, he]
      exact ⟨ts, hbehind, by rw [hnone]; omega⟩
    · obtain ⟨ts, hbehind, hfirst⟩ := hx.ok ha
      obtain ⟨us, hbehind', hsecond⟩ := (hf ha hbehind.endsOnce').error he
      refine ⟨ts ++ us, hbehind.trans hbehind', ?_⟩
      rw [hcost ha]
      push_cast [List.length_append, Int.mul_add]
      omega

theorem bind (hx : Paid c x owed lost) (hlost : lost ≤ lost')
    (hf : ∀ a c', EndsOnce c'.tokens →
      Paid c' (f a) (fun b => owed' b - owed a) (lost' - owed a)) :
    Paid c (x >>= f) owed' lost' :=
  hx.bind_ok hlost fun {a c'} _ hends => hf a c' hends

theorem map {g : α → β} {n : Int} (hx : Paid c x (fun _ => n) lost) :
    Paid c (g <$> x) (fun _ => n) lost := by
  constructor
  · intro b c' h
    obtain ⟨a, ha, -⟩ := Parse.map_eq_ok_iff.1 h
    exact hx.ok ha
  · intro e c' h
    exact hx.error (Parse.map_eq_error_iff.1 h)

theorem once {step : Parse α} (hends : EndsOnce c.tokens) (hlost : 1 ≤ lost)
    (hok : ∀ {a c'}, step c = .ok a c' →
      ∃ ts, Behind c ts c' ∧ 1 ≤ stepsPerToken * (ts.length : Int) + owed a)
    (herror : ∀ {e c'}, step c = .error e c' → c' = c) : Paid c (once step) owed lost := by
  constructor
  · exact hok
  · intro e c' h
    obtain rfl := herror h
    exact ⟨[], .refl hends, by simpa [Counted.once] using hlost⟩

/-- An elementary step that may stop behind tokens or not. -/
theorem moving {step : Parse α} (hends : EndsOnce c.tokens)
    (hok : ∀ {a c'}, step c = .ok a c' → ∃ ts, Behind c ts c')
    (herror : ∀ {e c'}, step c = .error e c' → c' = c) :
    Paid c (Counted.once step) (fun _ => 1) 1 := by
  refine once hends (by decide) (fun h => ?_) herror
  obtain ⟨ts, hbehind⟩ := hok h
  have hpaid := Int.mul_nonneg (Int.natCast_nonneg stepsPerToken) (Int.natCast_nonneg ts.length)
  exact ⟨ts, hbehind, by omega⟩

/-- An elementary step that only looks at the cursor. -/
theorem looking {step : Parse α} {a : α} (hends : EndsOnce c.tokens) (hstep : step c = .ok a c) :
    Paid c (Counted.once step) (fun _ => 1) 1 := by
  refine moving hends (fun h => ?_) fun h => nomatch hstep.symm.trans h
  obtain ⟨-, rfl⟩ := EStateM.Result.ok.inj (hstep.symm.trans h)
  exact ⟨[], .refl hends⟩

/-- An elementary step that only looks at the cursor is added to what follows it. -/
theorem bind_once {step : Parse α} {a : α} (hstep : step c = .ok a c)
    (hf : Paid c (f a) (fun b => owed' b - 1) (lost - 1)) :
    Paid c (Counted.once step >>= f) owed' lost := by
  have hrun : (Counted.once step >>= f).run c = (f a).run c := Parse.bind_of_ok hstep
  have hcost : (Counted.once step >>= f).cost c = 1 + (f a).cost c := by
    simp [Bind.bind, Counted.once, hstep]
  constructor
  · intro b c' h
    obtain ⟨ts, hbehind, hle⟩ := hf.ok (hrun.symm.trans h)
    exact ⟨ts, hbehind, by rw [hcost]; push_cast; omega⟩
  · intro e c' h
    obtain ⟨ts, hbehind, hle⟩ := hf.error (hrun.symm.trans h)
    exact ⟨ts, hbehind, by rw [hcost]; push_cast; omega⟩

theorem bind_current {f : Token → Counted β}
    (hf : Paid c (f c.current) (fun b => owed' b - 1) (lost - 1)) :
    Paid c (current >>= f) owed' lost :=
  bind_once Parse.current_apply hf

theorem bind_check {kind : TokenKind} {f : Bool → Counted β}
    (hf : Paid c (f (c.current.kind = kind)) (fun b => owed' b - 1) (lost - 1)) :
    Paid c (check kind >>= f) owed' lost :=
  bind_once Parse.check_apply hf

/-- A step that fails where it is. -/
theorem failing {step : Parse α} (hends : EndsOnce c.tokens) (hlost : 1 ≤ lost)
    (hok : ∀ {a c'}, step c ≠ .ok a c') (herror : ∀ {e c'}, step c = .error e c' → c' = c) :
    Paid c (Counted.once step) owed lost :=
  once hends hlost (fun h => absurd h hok) herror

/-- Nothing follows a step that fails. -/
theorem bind_failing {step : Parse α} (hends : EndsOnce c.tokens) (hlost : 1 ≤ lost)
    (hok : ∀ {a c'}, step c ≠ .ok a c') (herror : ∀ {e c'}, step c = .error e c' → c' = c) :
    Paid c (Counted.once step >>= f) owed' lost := by
  have hpaid : Paid c (Counted.once step) (fun _ => 0) lost := failing hends hlost hok herror
  exact hpaid.bind_ok (Int.le_refl _) fun h _ => absurd h hok

theorem fail {fault : Fault} (hends : EndsOnce c.tokens) (hlost : 1 ≤ lost) :
    Paid c (fail fault) owed lost :=
  failing hends hlost Parse.fail_ne_ok Parse.fail_eq_error

theorem unexpected {expected : String} (hends : EndsOnce c.tokens) (hlost : 1 ≤ lost) :
    Paid c (unexpected expected) owed lost :=
  failing hends hlost Parse.unexpected_ne_ok Parse.unexpected_eq_error

theorem missing {expected : String} (hends : EndsOnce c.tokens) (hlost : 1 ≤ lost) :
    Paid c (missing expected) owed lost :=
  failing hends hlost Parse.missing_ne_ok Parse.missing_eq_error

theorem ofReading {reading : Reading α} (hends : EndsOnce c.tokens) :
    Paid c (ofReading reading) (fun _ => 1) 1 := by
  refine moving hends (fun h => ?_) Parse.ofReading_eq_error
  obtain ⟨-, rfl⟩ := Parse.ofReading_eq_ok_iff.1 h
  exact ⟨[], .refl hends⟩

/-- An elementary step that takes a token whenever it succeeds has seven more paid. -/
theorem taking {step : Parse α} (hends : EndsOnce c.tokens)
    (hok : ∀ {a c'}, step c = .ok a c' → ∃ t, Behind c [t] c')
    (herror : ∀ {e c'}, step c = .error e c' → c' = c) :
    Paid c (Counted.once step) (fun _ => -7) 1 := by
  refine once hends (by decide) ?_ herror
  intro a c' h
  obtain ⟨t, hbehind⟩ := hok h
  exact ⟨[t], hbehind, by simp [stepsPerToken]⟩

theorem expect {mark : Mark} (hends : EndsOnce c.tokens) :
    Paid c (expect mark) (fun _ => -7) 1 :=
  taking hends (fun h => ((Parse.expect_eq_ok_iff hends).1 h).imp fun _ h => h.2)
    Parse.eatOrFail_eq_error

theorem expectKeyword {keyword : String} (hends : EndsOnce c.tokens) :
    Paid c (expectKeyword keyword) (fun _ => -7) 1 :=
  taking hends (fun h => ((Parse.expectKeyword_eq_ok_iff hends).1 h).imp fun _ h => h.2)
    Parse.eatOrFail_eq_error

theorem expectWord {what : String} (hends : EndsOnce c.tokens) :
    Paid c (expectWord what) (fun _ => -7) 1 :=
  taking hends (fun h => ((Parse.expectWord_eq_ok_iff hends).1 h).imp fun _ h => h.2)
    Parse.expectWord_eq_error

theorem advance {kind : TokenKind} (hends : EndsOnce c.tokens) (hkind : c.current.kind = kind)
    (hne : kind ≠ .endOfInput) : Paid c advance (fun _ => -7) 1 :=
  taking hends (fun h => ⟨_, (Parse.advance_eq_ok_iff hends (hkind ▸ hne)).1 h⟩)
    fun h => absurd h Parse.advance_ne_error

/-- Going on is paid at the end, too, where it takes no token. -/
theorem advance_anywhere (hends : EndsOnce c.tokens) : Paid c Counted.advance (fun _ => 1) 1 :=
  moving hends (Parse.exists_behind_advance hends) fun h => absurd h Parse.advance_ne_error

theorem eat {kind : TokenKind} (hends : EndsOnce c.tokens) (hkind : kind ≠ .endOfInput) :
    Paid c (eat kind) (fun b => if b then -7 else 1) 1 := by
  refine once hends (by decide) ?_ fun h => absurd h Parse.eat_ne_error
  intro b c' h
  rcases (Parse.eat_eq_ok_iff hends hkind).1 h with ⟨rfl, t, -, hbehind⟩ | ⟨rfl, -, rfl⟩
  · exact ⟨[t], hbehind, by simp [stepsPerToken]⟩
  · exact ⟨[], .refl hends, by decide⟩

theorem eat_anything {kind : TokenKind} (hends : EndsOnce c.tokens) :
    Paid c (Counted.eat kind) (fun _ => 1) 1 :=
  moving hends (Parse.exists_behind_eat hends) fun h => absurd h Parse.eat_ne_error

theorem choose {step : Cursor → Counted α} (h : Paid c (step c) owed lost) :
    Paid c (choose step) owed lost :=
  ⟨h.ok, h.error⟩

/-- A step one level deeper comes back to the level on which it is entered, also after an
error. -/
theorem nested {nesting : Nesting} (hends : EndsOnce c.tokens) (hlost : 1 ≤ lost)
    (hx : ∀ {c}, EndsOnce c.tokens → Paid c x (fun a => owed a - 1) (lost - 1)) :
    Paid c (nested nesting x) owed lost := by
  have hinner := hx (c := { c with depth := c.depth + 1 }) hends
  have hentered : c.depth < maxNesting → (Counted.nested nesting x).cost c =
      1 + x.cost { c with depth := c.depth + 1 } := fun hlt => by
    simp [Counted.nested, Nat.not_le_of_lt hlt]
  constructor
  · intro a c' h
    obtain ⟨hlt, m, hm, rfl⟩ := Parse.nested_eq_ok h
    obtain ⟨ts, hbehind, hcost⟩ := hinner.ok hm
    refine ⟨ts, hbehind.shallower, ?_⟩
    rw [hentered hlt]
    push_cast
    omega
  · intro e c' h
    rcases Parse.nested_eq_error h with ⟨hdeep, rfl⟩ | ⟨hlt, m, hm, rfl⟩
    · have hrefused : (Counted.nested nesting x).cost c' = 1 := by simp [Counted.nested, hdeep]
      exact ⟨[], .refl hends, by simpa [hrefused] using hlost⟩
    · obtain ⟨ts, hbehind, hcost⟩ := hinner.error hm
      refine ⟨ts, hbehind.shallower, ?_⟩
      rw [hentered hlt]
      push_cast
      omega

end Paid

/-! ## Repetitions -/

namespace Paid

open Counted

variable {α : Type} {c : Cursor} {x : Counted α} {more : Counted (List α)} {owed lost : Int}

/-- If a step owes less than nothing, then a round that makes it pays for the check of the
next round. -/
theorem round (r : Repetition) (howed : owed < 0) (hlost : 0 ≤ lost)
    (hx : ∀ {c}, EndsOnce c.tokens → Paid c x (fun _ => owed) lost)
    (hmore : ∀ {c}, EndsOnce c.tokens → Paid c more (fun _ => 1) (lost + 1))
    (hends : EndsOnce c.tokens) :
    Paid c (r.round check Counted.eat x more) (fun _ => 1) (lost + 1) := by
  have hnext : Paid c (x >>= fun a => more >>= fun as => Pure.pure (a :: as)) (fun _ => 0)
      lost := by
    refine (hx hends).bind (by omega) fun a c hends => ?_
    refine (hmore hends).bind (by omega) fun as c hends => ?_
    exact pure hends (by omega)
  have hcomma : Paid c (Repetition.betweenCommas.round check Counted.eat x more) (fun _ => 0)
      lost := by
    refine (hx hends).bind (by omega) fun a c hends => ?_
    refine (eat hends (by simp)).bind (by omega) fun b c hends => ?_
    cases b with
    | true =>
      refine (hmore hends).bind (by simp; omega) fun as c hends => ?_
      exact pure hends (by simp; omega)
    | false => exact pure hends (by simp; omega)
  cases r with
  | whileSeeing kind =>
    refine bind_check ?_
    split
    · exact hnext.mono (fun _ => by decide) (by omega)
    · exact pure hends (by decide)
  | untilSeeing kind =>
    refine bind_check ?_
    split
    · exact pure hends (by decide)
    · exact hnext.mono (fun _ => by decide) (by omega)
  | untilSeeingCommas kind =>
    refine bind_check ?_
    split
    · exact pure hends (by decide)
    · exact hcomma.mono (fun _ => by decide) (by omega)
  | betweenCommas => exact hcomma.mono (fun _ => by decide) (by omega)

theorem rounds (r : Repetition) (howed : owed < 0) (hlost : 0 ≤ lost)
    (hx : ∀ {c}, EndsOnce c.tokens → Paid c x (fun _ => owed) lost) (n : Nat)
    (hends : EndsOnce c.tokens) : Paid c (rounds r x n) (fun _ => 1) (lost + 1) := by
  induction n generalizing c with
  | zero => exact pure hends (by decide)
  | succ n ih => exact round r howed hlost hx ih hends

theorem all (r : Repetition) (howed : owed < 0) (hlost : 0 ≤ lost)
    (hx : ∀ {c}, EndsOnce c.tokens → Paid c x (fun _ => owed) lost)
    (hends : EndsOnce c.tokens) : Paid c (all r x) (fun _ => 1) (lost + 1) :=
  choose (rounds r howed hlost hx _ hends)

theorem items (close : Mark) (howed : owed < 0) (hlost : 1 ≤ lost)
    (hx : ∀ {c}, EndsOnce c.tokens → Paid c x (fun _ => owed) lost)
    (hends : EndsOnce c.tokens) : Paid c (items close x) (fun _ => -6) (lost + 1) := by
  refine (all _ howed (by omega) hx hends).bind (Int.le_refl _) fun as c hends => ?_
  refine (expect hends).bind (by omega) fun _ c hends => ?_
  exact pure hends (by decide)

end Paid

/-! ## Procedures

The budgets add up from the elementary steps: a taken token leaves seven, everything else
costs one.  They are as good as the procedures that use them need, not as good as can be. -/

namespace Counted

open Paid (bind_current)

variable {c : Cursor}

theorem paid_parseMember {value : Counted Json}
    (hvalue : ∀ {c}, EndsOnce c.tokens → Paid c value (fun _ => -4) 3)
    (hends : EndsOnce c.tokens) : Paid c (parseMember value) (fun _ => -4) 3 := by
  refine bind_current ?_
  split
  next h =>
    refine (Paid.advance hends h nofun).bind (by decide) fun _ c hends => ?_
    refine (Paid.ofReading hends).bind (by decide) fun key c hends => ?_
    refine (Paid.expect hends).bind (by decide) fun _ c hends => ?_
    refine (hvalue hends).bind (by decide) fun v c hends => ?_
    exact Paid.pure hends (by decide)
  next => exact Paid.unexpected hends (by decide)

theorem paid_parseValueIn (levels : Nat) (hends : EndsOnce c.tokens) :
    Paid c (parseValueIn levels) (fun _ => -4) 3 := by
  induction levels generalizing c with
  | zero => exact Paid.fail hends (by decide)
  | succ levels ih =>
    refine Paid.nested hends (by decide) fun hends => bind_current ?_
    split
    -- a string
    next h =>
      refine (Paid.advance hends h nofun).bind (by decide) fun _ c hends => ?_
      refine (Paid.ofReading hends).bind (by decide) fun text c hends => ?_
      exact Paid.pure hends (by decide)
    -- a number
    next h =>
      refine (Paid.advance hends h nofun).bind (by decide) fun _ c hends => ?_
      exact (Paid.ofReading hends).mono (fun _ => by decide) (by decide)
    -- a word
    next h =>
      refine (Paid.advance hends h nofun).bind (by decide) fun _ c hends => ?_
      exact Paid.pure hends (by decide)
    next h =>
      refine (Paid.advance hends h nofun).bind (by decide) fun _ c hends => ?_
      exact Paid.pure hends (by decide)
    next h =>
      refine (Paid.advance hends h nofun).bind (by decide) fun _ c hends => ?_
      exact Paid.pure hends (by decide)
    -- an array
    next h =>
      refine (Paid.advance hends h nofun).bind (by decide) fun _ c hends => ?_
      refine (Paid.items _ (by decide) (by decide) ih hends).bind (by decide)
        fun values c hends => ?_
      exact Paid.pure hends (by decide)
    -- an object
    next h =>
      refine (Paid.advance hends h nofun).bind (by decide) fun _ c hends => ?_
      refine (Paid.items _ (by decide) (by decide) (paid_parseMember ih) hends).bind (by decide)
        fun members c hends => ?_
      exact Paid.pure hends (by decide)
    next => exact Paid.missing hends (by decide)

theorem paid_parseValue (hends : EndsOnce c.tokens) : Paid c parseValue (fun _ => -4) 3 :=
  Paid.choose (paid_parseValueIn _ hends)

theorem paid_parseAnnotation (hends : EndsOnce c.tokens) :
    Paid c parseAnnotation (fun _ => -1) 3 := by
  refine bind_current ?_
  -- the mark is not looked at again, so it may as well be the end here
  refine (Paid.advance_anywhere hends).bind (by decide) fun _ c hends => ?_
  refine (Paid.expectWord hends).bind (by decide) fun name c hends => ?_
  dsimp only
  split
  · exact Paid.bind_failing hends (by decide) nofun Parse.throw_eq_error
  · refine (Paid.expect hends).bind (by decide) fun _ c hends => ?_
    refine (paid_parseValue hends).bind (by decide) fun value c hends => ?_
    refine (Paid.expect hends).bind (by decide) fun _ c hends => ?_
    exact Paid.pure hends (by decide)

theorem paid_parseAnnotations (hends : EndsOnce c.tokens) :
    Paid c parseAnnotations (fun _ => 1) 4 :=
  Paid.all _ (by decide) (by decide) paid_parseAnnotation hends

theorem paid_parseTypeIn (levels : Nat) (hends : EndsOnce c.tokens) :
    Paid c (parseTypeIn levels) (fun _ => -4) 3 := by
  induction levels generalizing c with
  | zero => exact Paid.fail hends (by decide)
  | succ levels ih =>
    refine Paid.nested hends (by decide) fun hends => bind_current ?_
    split
    -- an array, a map or a union, which take their bracket as well
    next h =>
      refine (Paid.advance hends h nofun).bind (by decide) fun _ c hends => ?_
      refine (Paid.expect hends).bind (by decide) fun _ c hends => ?_
      refine (ih hends).bind (by decide) fun items c hends => ?_
      refine (Paid.expect hends).bind (by decide) fun _ c hends => ?_
      exact Paid.pure hends (by decide)
    next h =>
      refine (Paid.advance hends h nofun).bind (by decide) fun _ c hends => ?_
      refine (Paid.expect hends).bind (by decide) fun _ c hends => ?_
      refine (ih hends).bind (by decide) fun values c hends => ?_
      refine (Paid.expect hends).bind (by decide) fun _ c hends => ?_
      exact Paid.pure hends (by decide)
    next h =>
      refine (Paid.advance hends h nofun).bind (by decide) fun _ c hends => ?_
      refine (Paid.expect hends).bind (by decide) fun _ c hends => ?_
      refine (Paid.all _ (by decide) (by decide) ih hends).bind (by decide)
        fun branches c hends => ?_
      refine (Paid.expect hends).bind (by decide) fun _ c hends => ?_
      exact Paid.pure hends (by decide)
    next => exact Paid.fail hends (by decide)
    -- a name
    next h =>
      refine (Paid.advance hends h nofun).bind (by decide) fun _ c hends => ?_
      exact Paid.pure hends (by decide)
    next => exact Paid.missing hends (by decide)

theorem paid_parseType (hends : EndsOnce c.tokens) : Paid c parseType (fun _ => -4) 3 :=
  Paid.choose (paid_parseTypeIn _ hends)

theorem paid_parseDefault (hends : EndsOnce c.tokens) : Paid c parseDefault (fun _ => 1) 1 := by
  refine (Paid.eat hends (by simp)).bind (by decide) fun b c hends => ?_
  cases b with
  | true => exact (Paid.map (paid_parseValue hends)).mono (fun _ => by decide) (by decide)
  | false => exact Paid.pure hends (by decide)

theorem paid_parseVariable (doc : Option String) (properties : Properties) (schema : Schema)
    (hends : EndsOnce c.tokens) :
    Paid c (parseVariable doc properties schema) (fun _ => -5) 2 := by
  refine bind_current ?_
  refine (Paid.expectWord hends).bind (by decide) fun name c hends => ?_
  refine (paid_parseDefault hends).bind (by decide) fun default? c hends => ?_
  exact Paid.pure hends (by decide)

theorem paid_parseFields (hends : EndsOnce c.tokens) : Paid c parseFields (fun _ => -7) 6 := by
  refine bind_current ?_
  refine (paid_parseAnnotations hends).bind (by decide) fun annotations c hends => ?_
  refine (Paid.ofReading hends).bind (by decide) fun properties c hends => ?_
  refine (paid_parseType hends).bind (by decide) fun schema c hends => ?_
  refine (Paid.all _ (by decide) (by decide) (paid_parseVariable _ _ _) hends).bind (by decide)
    fun fields c hends => ?_
  refine (Paid.expect hends).bind (by decide) fun _ c hends => ?_
  exact Paid.pure hends (by decide)

theorem paid_parseParameter (hends : EndsOnce c.tokens) :
    Paid c parseParameter (fun _ => -7) 5 := by
  refine bind_current ?_
  refine (paid_parseAnnotations hends).bind (by decide) fun annotations c hends => ?_
  refine (paid_parseType hends).bind (by decide) fun schema c hends => ?_
  refine (Paid.expectWord hends).bind (by decide) fun name c hends => ?_
  refine (Paid.ofReading hends).bind (by decide) fun properties c hends => ?_
  refine (paid_parseDefault hends).bind (by decide) fun default? c hends => ?_
  exact Paid.pure hends (by decide)

theorem paid_parseRecord (doc : Option String) (annotations : List Annotation) (isError : Bool)
    (hends : EndsOnce c.tokens) :
    Paid c (parseRecord doc annotations isError) (fun _ => -7) 1 := by
  refine (Paid.expectWord hends).bind (by decide) fun name c hends => ?_
  refine (Paid.ofReading hends).bind (by decide) fun applied c hends => ?_
  refine (Paid.expect hends).bind (by decide) fun _ c hends => ?_
  refine (Paid.all _ (by decide) (by decide) paid_parseFields hends).bind (by decide)
    fun fields c hends => ?_
  refine (Paid.expect hends).bind (by decide) fun _ c hends => ?_
  exact Paid.pure hends (by decide)

theorem paid_parseEnum (doc : Option String) (annotations : List Annotation)
    (hends : EndsOnce c.tokens) : Paid c (parseEnum doc annotations) (fun _ => -7) 1 := by
  refine (Paid.expectWord hends).bind (by decide) fun name c hends => ?_
  refine (Paid.expect hends).bind (by decide) fun _ c hends => ?_
  refine (Paid.items _ (by decide) (by decide) Paid.expectWord hends).bind (by decide)
    fun symbols c hends => ?_
  refine (Paid.ofReading hends).bind (by decide) fun applied c hends => ?_
  exact Paid.pure hends (by decide)

theorem paid_parseSize (hends : EndsOnce c.tokens) : Paid c parseSize (fun _ => -6) 2 := by
  refine bind_current ?_
  split
  next h =>
    split
    · refine (Paid.advance hends h nofun).bind (by decide) fun _ c hends => ?_
      exact Paid.pure hends (by decide)
    · exact Paid.fail hends (by decide)
  next => exact Paid.missing hends (by decide)

theorem paid_parseFixed (doc : Option String) (annotations : List Annotation)
    (hends : EndsOnce c.tokens) : Paid c (parseFixed doc annotations) (fun _ => -7) 1 := by
  refine (Paid.expectWord hends).bind (by decide) fun name c hends => ?_
  refine (Paid.expect hends).bind (by decide) fun _ c hends => ?_
  refine (paid_parseSize hends).bind (by decide) fun size c hends => ?_
  refine (Paid.expect hends).bind (by decide) fun _ c hends => ?_
  refine (Paid.expect hends).bind (by decide) fun _ c hends => ?_
  refine (Paid.ofReading hends).bind (by decide) fun applied c hends => ?_
  exact Paid.pure hends (by decide)

theorem paid_parseResponse (hends : EndsOnce c.tokens) :
    Paid c parseResponse (fun _ => -3) 4 := by
  refine (Paid.eat hends (by simp)).bind (by decide) fun isVoid c hends => ?_
  cases isVoid with
  | true => exact Paid.pure hends (by decide)
  | false => exact (paid_parseType hends).mono (fun _ => by decide) (by decide)

theorem paid_parseThrows (hends : EndsOnce c.tokens) : Paid c parseThrows (fun _ => 1) 1 := by
  refine (Paid.eat hends (by simp)).bind (by decide) fun some c hends => ?_
  cases some with
  | true =>
    exact (Paid.all _ (by decide) (by decide) Paid.expectWord hends).mono (fun _ => by decide)
      (by decide)
  | false => exact Paid.pure hends (by decide)

theorem paid_parseMessage (hends : EndsOnce c.tokens) : Paid c parseMessage (fun _ => -7) 4 := by
  refine (paid_parseResponse hends).bind (by decide) fun response c hends => ?_
  refine (Paid.expectWord hends).bind (by decide) fun name c hends => ?_
  refine (Paid.expect hends).bind (by decide) fun _ c hends => ?_
  refine (Paid.items _ (by decide) (by decide) paid_parseParameter hends).bind (by decide)
    fun request c hends => ?_
  refine (paid_parseThrows hends).bind (by decide) fun errors c hends => ?_
  refine (Paid.eat_anything hends).bind (by decide) fun oneWay c hends => ?_
  refine (Paid.expect hends).bind (by decide) fun _ c hends => ?_
  exact Paid.pure hends (by decide)

theorem paid_parseDeclaration (hends : EndsOnce c.tokens) :
    Paid c parseDeclaration (fun _ => -1) 7 := by
  refine bind_current ?_
  refine (paid_parseAnnotations hends).bind (by decide) fun annotations c hends => ?_
  refine bind_current ?_
  split
  next h =>
    refine (Paid.advance hends h nofun).bind (by decide) fun _ c hends => ?_
    exact (Paid.map (paid_parseRecord _ _ _ hends)).mono (fun _ => by decide) (by decide)
  next h =>
    refine (Paid.advance hends h nofun).bind (by decide) fun _ c hends => ?_
    exact (Paid.map (paid_parseRecord _ _ _ hends)).mono (fun _ => by decide) (by decide)
  next h =>
    refine (Paid.advance hends h nofun).bind (by decide) fun _ c hends => ?_
    exact (Paid.map (paid_parseEnum _ _ hends)).mono (fun _ => by decide) (by decide)
  next h =>
    refine (Paid.advance hends h nofun).bind (by decide) fun _ c hends => ?_
    exact (Paid.map (paid_parseFixed _ _ hends)).mono (fun _ => by decide) (by decide)
  next =>
    refine (paid_parseMessage hends).bind (by decide) fun message c hends => ?_
    refine (Paid.ofReading hends).bind (by decide) fun properties c hends => ?_
    exact Paid.pure hends (by decide)
  next => exact Paid.missing hends (by decide)

theorem paid_parseUnit (hends : EndsOnce c.tokens) : Paid c parseUnit (fun _ => -1) 5 := by
  refine bind_current ?_
  refine (paid_parseAnnotations hends).bind (by decide) fun annotations c hends => ?_
  refine (Paid.expectKeyword hends).bind (by decide) fun _ c hends => ?_
  refine (Paid.expectWord hends).bind (by decide) fun name c hends => ?_
  refine (Paid.ofReading hends).bind (by decide) fun applied c hends => ?_
  refine (Paid.expect hends).bind (by decide) fun _ c hends => ?_
  refine (Paid.all _ (by decide) (by decide) paid_parseDeclaration hends).bind (by decide)
    fun declarations c hends => ?_
  refine (Paid.expect hends).bind (by decide) fun _ c hends => ?_
  refine Paid.bind_check ?_
  dsimp only
  split
  · exact Paid.pure hends (by decide)
  · exact Paid.bind_failing hends (by decide) Parse.unexpected_ne_ok Parse.unexpected_eq_error

end Counted

end IdlCompiler.Idl
