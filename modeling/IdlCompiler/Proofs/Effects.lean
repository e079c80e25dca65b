/-
# What a piece of work does

A piece of work asks some requests, ends with a result and leaves a state.  The relation
`Work.Does` says all three at once, so that an argument about a program follows the program
once and not three times.  `Work.Asks` says what a piece of work may ask whatever the answers
are.

Main statements: `Work.Does.bind`, `Attempt.does_bind_ok` and `Attempt.does_bind_error`, one
piece of work after another, where the second is not begun if the first fails; and
`Work.Asks.bind`, where it asks no more than both.
-/
import IdlCompiler.Proofs.Results
import IdlCompiler.Work.Basic

namespace IdlCompiler

variable {σ α β δ ε : Type} {server : Server σ} {s s' s'' : σ} {asked more : List Request}

/-! ## Pieces of work -/

namespace Work

/-- A piece of work asks these requests in this order and ends with a result and a state. -/
structure Does (server : Server σ) (w : Work α) (s : σ) (asked : List Request) (result : α)
    (s' : σ) : Prop where
  requests : w.requests server s = asked
  run : w.run server s = (result, s')

theorem does_self (server : Server σ) (w : Work α) (s : σ) :
    w.Does server s (w.requests server s) (w.run server s).1 (w.run server s).2 := ⟨rfl, rfl⟩

theorem Does.unique {w : Work α} {a b : α} (h : w.Does server s asked a s')
    (h' : w.Does server s more b s'') : asked = more ∧ a = b ∧ s' = s'' := by
  have hrun := h.run.symm.trans h'.run
  exact ⟨h.requests.symm.trans h'.requests, congrArg Prod.fst hrun, congrArg Prod.snd hrun⟩

theorem does_done (server : Server σ) (a : α) (s : σ) : (done a).Does server s [] a s := ⟨rfl, rfl⟩

theorem does_request (server : Server σ) (r : Request) (s : σ) :
    (request r).Does server s [r] (server r s).1 (server r s).2 := ⟨rfl, rfl⟩

theorem Does.of_request {r : Request} {answer : r.Answer}
    (h : (request r).Does server s asked answer s') :
    asked = [r] ∧ answer = (server r s).1 ∧ s' = (server r s).2 :=
  h.unique (does_request server r s)

theorem Does.bind {w : Work α} {f : α → Work β} {a : α} {b : β} (hw : w.Does server s asked a s')
    (hf : (f a).Does server s' more b s'') : (w >>= f).Does server s (asked ++ more) b s'' where
  requests := by rw [requests_bind, hw.requests, hw.run, hf.requests]
  run := by rw [run_bind, hw.run, hf.run]

theorem Does.of_bind {w : Work α} {f : α → Work β} {b : β}
    (h : (w >>= f).Does server s asked b s') : ∃ first a s₁ more, asked = first ++ more ∧
      w.Does server s first a s₁ ∧ (f a).Does server s₁ more b s' := by
  have hfirst := does_self server w s
  have hrest := does_self server (f (w.run server s).1) (w.run server s).2
  obtain ⟨rfl, rfl, rfl⟩ := h.unique (hfirst.bind hrest)
  exact ⟨_, _, _, _, rfl, hfirst, hrest⟩

/-- Nothing more is asked where the rest is done at once. -/
theorem Does.bind_done {w : Work α} {f : α → Work β} {a : α} {b : β}
    (hw : w.Does server s asked a s') (hf : f a = done b) :
    (w >>= f).Does server s asked b s' := by
  have hrest : (f a).Does server s' [] b s' := hf ▸ does_done server b s'
  exact List.append_nil asked ▸ hw.bind hrest

theorem Does.map {w : Work α} {a : α} (hw : w.Does server s asked a s') (f : α → β) :
    (f <$> w).Does server s asked (f a) s' := by
  rw [map_eq_pure_bind]
  exact hw.bind_done rfl

end Work

namespace Attempt

open Work

theorem outcome_bind (a : Attempt ε α) (f : α → Attempt ε β) :
    (a >>= f).outcome = a.outcome >>= fun result => match result with
      | .ok x => (f x).outcome
      | .error e => .done (.error e) := by
  show andThen a _ = andThen a _
  congr 1
  funext result
  cases result <;> rfl

theorem does_pure (server : Server σ) (x : α) (s : σ) :
    (pure x : Attempt ε α).outcome.Does server s [] (.ok x) s := ⟨rfl, rfl⟩

theorem does_throw (server : Server σ) (e : ε) (s : σ) :
    (throw e : Attempt ε α).outcome.Does server s [] (.error e) s := ⟨rfl, rfl⟩

theorem does_bind_ok {a : Attempt ε α} {f : α → Attempt ε β} {x : α} {result : Except ε β}
    (ha : a.outcome.Does server s asked (.ok x) s')
    (hf : (f x).outcome.Does server s' more result s'') :
    (a >>= f).outcome.Does server s (asked ++ more) result s'' := by
  rw [outcome_bind]
  exact ha.bind hf

/-- Nothing more is asked where the rest is done at once. -/
theorem does_bind_done {a : Attempt ε α} {f : α → Attempt ε β} {x : α} {result : Except ε β}
    (ha : a.outcome.Does server s asked (.ok x) s') (hf : (f x).outcome = .done result) :
    (a >>= f).outcome.Does server s asked result s' := by
  rw [outcome_bind]
  exact ha.bind_done hf

/-- Work that cannot fail as part of an attempt. -/
theorem does_lift {w : Work α} {a : α} (hw : w.Does server s asked a s') :
    (liftM w : Attempt ε α).outcome.Does server s asked (.ok a) s' :=
  hw.map fun x => (.ok x : Except ε α)

theorem of_does_bind {a : Attempt ε α} {f : α → Attempt ε β} {result : Except ε β}
    (h : (a >>= f).outcome.Does server s asked result s') :
    (∃ e, result = .error e ∧ a.outcome.Does server s asked (.error e) s') ∨
      ∃ first x s₁ more, asked = first ++ more ∧ a.outcome.Does server s first (.ok x) s₁ ∧
        (f x).outcome.Does server s₁ more result s' := by
  rw [outcome_bind] at h
  obtain ⟨first, e | x, s₁, more, rfl, hfirst, hrest⟩ := h.of_bind
  · obtain ⟨rfl, rfl, rfl⟩ := hrest.unique (does_done server _ s₁)
    exact .inl ⟨e, rfl, (List.append_nil first).symm ▸ hfirst⟩
  · exact .inr ⟨first, x, s₁, more, rfl, hfirst, hrest⟩

/-- Work that cannot fail and what follows it. -/
theorem of_does_lift_bind {w : Work α} {f : α → Attempt ε β} {result : Except ε β}
    (h : (liftM w >>= f : Attempt ε β).outcome.Does server s asked result s') :
    ∃ first a s₁ more, asked = first ++ more ∧ w.Does server s first a s₁ ∧
      (f a).outcome.Does server s₁ more result s' := by
  have hfirst := does_self server w s
  have hrest := does_self server (f (w.run server s).1).outcome (w.run server s).2
  obtain ⟨rfl, rfl, rfl⟩ := h.unique (does_bind_ok (does_lift hfirst) hrest)
  exact ⟨_, _, _, _, rfl, hfirst, hrest⟩

theorem does_bind_error {a : Attempt ε α} {f : α → Attempt ε β} {e : ε}
    (ha : a.outcome.Does server s asked (.error e) s') :
    (a >>= f).outcome.Does server s asked (.error e) s' := by
  rw [outcome_bind]
  exact ha.bind_done rfl

theorem does_of_toOption {a : Attempt ε α} {x : α}
    (h : (a.outcome.run server s).1.toOption = some x) :
    a.outcome.Does server s (a.outcome.requests server s) (.ok x) (a.outcome.run server s).2 :=
  eq_ok_of_toOption h ▸ does_self server a.outcome s

/-- Work whose failure is reported as another error. -/
theorem does_of {w : Work (Except δ α)} {result : Except δ α} (report : δ → ε)
    (hw : w.Does server s asked result s') :
    (of report w).outcome.Does server s asked (result.mapError report) s' := by
  cases result <;> exact hw.bind_done rfl

theorem of_does_of {report : δ → ε} {w : Work (Except δ α)} {result : Except ε α}
    (h : (of report w).outcome.Does server s asked result s') :
    ∃ answer : Except δ α, result = answer.mapError report ∧ w.Does server s asked answer s' := by
  have hw := does_self server w s
  obtain ⟨rfl, rfl, rfl⟩ := h.unique (does_of report hw)
  exact ⟨_, rfl, hw⟩

theorem of_does_of_ok {report : δ → ε} {w : Work (Except δ α)} {x : α}
    (h : (of report w).outcome.Does server s asked (.ok x) s') :
    w.Does server s asked (.ok x) s' := by
  obtain ⟨answer, hanswer, hw⟩ := of_does_of h
  obtain rfl := eq_ok_of_mapError hanswer.symm
  exact hw

theorem of_does_of_error {report : δ → ε} {w : Work (Except δ α)} {e : ε}
    (h : (of report w).outcome.Does server s asked (.error e) s') :
    ∃ cause, e = report cause ∧ w.Does server s asked (.error cause) s' := by
  obtain ⟨answer, hanswer, hw⟩ := of_does_of h
  cases answer with
  | ok => simp at hanswer
  | error cause => exact ⟨cause, by simpa using hanswer, hw⟩

theorem of_does_adapt {report : δ → ε} {a : Attempt δ α} {result : Except ε α}
    (h : (outcome (ExceptT.adapt report a)).Does server s asked result s') :
    ∃ answer : Except δ α, result = answer.mapError report ∧
      a.outcome.Does server s asked answer s' := by
  have ha := does_self server a.outcome s
  obtain ⟨rfl, rfl, rfl⟩ := h.unique (ha.map (Except.mapError report))
  exact ⟨_, rfl, ha⟩

theorem of_does_ofResult {given result : Except ε α}
    (h : (ofResult given).outcome.Does server s asked result s') :
    asked = [] ∧ result = given ∧ s' = s :=
  h.unique (does_done server given s)

end Attempt

/-! ## What may be asked -/

namespace Work

variable {P : Request → Prop}

/-- Every request of a piece of work has a property, whatever the answers are. -/
inductive Asks (P : Request → Prop) : Work α → Prop
  | done (result : α) : Asks P (done result)
  | ask {request : Request} {next : request.Answer → Work α} (allowed : P request)
      (on : ∀ answer, Asks P (next answer)) : Asks P (ask request next)

theorem asks_request {r : Request} (h : P r) : Asks P (request r) := .ask h fun _ => .done _

theorem Asks.bind {w : Work α} {f : α → Work β} (hw : w.Asks P) (hf : ∀ a, (f a).Asks P) :
    (w >>= f).Asks P := by
  induction hw with
  | done a => exact hf a
  | ask allowed _ ih => exact .ask allowed ih

theorem Asks.map {w : Work α} (hw : w.Asks P) (f : α → β) : (f <$> w).Asks P := by
  rw [map_eq_pure_bind]
  exact hw.bind fun a => .done (f a)

theorem Asks.of_does {w : Work α} {a : α} (hw : w.Asks P) (h : w.Does server s asked a s') :
    ∀ r ∈ asked, P r := by
  rw [← h.requests]
  clear h
  induction hw generalizing s with
  | done a => simp [requests]
  | ask allowed _ ih => exact List.forall_mem_cons.mpr ⟨allowed, ih _⟩

/-- A state stays as it is if no request changes it. -/
theorem Asks.eq_of_does {w : Work α} {a : α} (hw : w.Asks P)
    (hserver : ∀ r s, P r → (server r s).2 = s) (h : w.Does server s asked a s') : s' = s := by
  have hrun : s' = (w.run server s).2 := (congrArg Prod.snd h.run).symm
  rw [hrun]
  clear h hrun
  induction hw generalizing s with
  | done a => rfl
  | ask allowed _ ih => rw [run_ask, ih, hserver _ _ allowed]

end Work

namespace Attempt

variable {P : Request → Prop}

theorem asks_bind {a : Attempt ε α} {f : α → Attempt ε β} (ha : a.outcome.Asks P)
    (hf : ∀ x, (f x).outcome.Asks P) : (a >>= f).outcome.Asks P := by
  rw [outcome_bind]
  refine ha.bind fun result => ?_
  cases result with
  | ok x => exact hf x
  | error e => exact .done _

theorem asks_of {report : δ → ε} {w : Work (Except δ α)} (hw : w.Asks P) :
    (of report w).outcome.Asks P :=
  hw.bind fun answer => by cases answer <;> exact .done _

theorem asks_ofResult (result : Except ε α) : (ofResult result).outcome.Asks P := .done _

theorem asks_pure (x : α) : (pure x : Attempt ε α).outcome.Asks P := .done _

theorem asks_throw (e : ε) : (throw e : Attempt ε α).outcome.Asks P := .done _

theorem asks_lift {w : Work α} (hw : w.Asks P) : (liftM w : Attempt ε α).outcome.Asks P :=
  hw.bind fun _ => .done _

theorem asks_adapt {report : δ → ε} {a : Attempt δ α} (ha : a.outcome.Asks P) :
    (outcome (ExceptT.adapt report a)).Asks P := ha.map (Except.mapError report)

end Attempt

end IdlCompiler
