/-
# Computations that may fail

A computation that may fail gives a result if all that it is put together from does.  For a list
whose items are computed one after the other, this means each of them.

Main statements: `Except.bind_eq_ok_iff`; `mapM_eq_ok_iff`, where each item is read; and
`filterM_eq_ok_iff`, where each item is tested.
-/
import Mathlib.Data.List.Forall2

namespace IdlCompiler

variable {α β δ ε : Type}

/-! ## Results -/

@[simp] theorem mapError_ok (f : ε → δ) (a : α) : (Except.ok a).mapError f = .ok a := rfl

@[simp] theorem mapError_error (f : ε → δ) (e : ε) :
    (Except.error e : Except ε α).mapError f = .error (f e) := rfl

theorem eq_ok_of_mapError {f : ε → δ} {result : Except ε α} {a : α}
    (h : result.mapError f = .ok a) : result = .ok a := by
  cases result <;> simp_all

theorem eq_ok_of_toOption {result : Except ε α} {a : α} (h : result.toOption = some a) :
    result = .ok a := by
  cases result <;> simp_all [Except.toOption]

theorem eq_ok_getD {result : Except ε α} (h : ∃ a, result = .ok a) (default : α) :
    result = .ok (result.toOption.getD default) := by
  obtain ⟨a, rfl⟩ := h
  rfl

/-- Two computations one after the other give a result only if both do. -/
theorem Except.bind_eq_ok_iff {x : Except ε α} {f : α → Except ε β} {b : β} :
    x >>= f = .ok b ↔ ∃ a, x = .ok a ∧ f a = .ok b := by
  cases x <;> simp [bind, Except.bind]

/-! ## Reading each item of a list -/

section Items

variable {read : α → Except ε β} {as : List α} {bs : List β}

theorem mapM_eq_ok_iff :
    as.mapM read = .ok bs ↔ List.Forall₂ (fun a b => read a = .ok b) as bs := by
  induction as generalizing bs with
  | nil => simp [pure, Except.pure, eq_comm]
  | cons a as ih =>
    simp only [List.mapM_cons, Except.bind_eq_ok_iff, ih, pure, Except.pure, Except.ok.injEq,
      List.forall₂_cons_left_iff, exists_and_left, @eq_comm _ _ bs]

theorem mem_of_mapM_eq_ok (h : as.mapM read = .ok bs) (b : β) :
    b ∈ bs ↔ ∃ a ∈ as, read a = .ok b := by
  have hitems := mapM_eq_ok_iff.mp h
  clear h
  induction hitems with
  | nil => simp
  | cons ha _ ih => simp [ih, ha, eq_comm]

theorem exists_mapM_eq_ok_iff :
    (∃ bs, as.mapM read = .ok bs) ↔ ∀ a ∈ as, ∃ b, read a = .ok b := by
  induction as with
  | nil => exact ⟨fun _ => by simp, fun _ => ⟨[], rfl⟩⟩
  | cons a as ih =>
    rw [List.forall_mem_cons, ← ih, List.mapM_cons]
    cases read a <;> cases as.mapM read <;> simp [bind, Except.bind, pure, Except.pure]

/-- Every item of a list that is read comes from reading one item. -/
theorem forall_mem_of_mapM {good : β → Prop} (h : as.mapM read = .ok bs)
    (hread : ∀ a ∈ as, ∀ b, read a = .ok b → good b) : ∀ b ∈ bs, good b := by
  intro b hb
  obtain ⟨a, ha, hab⟩ := (mem_of_mapM_eq_ok h b).mp hb
  exact hread a ha b hab

/-- Reading what is written for the items of a list reads the list if it does so for each item. -/
theorem mapM_map_eq {write : β → α} (h : ∀ b ∈ bs, read (write b) = .ok b) :
    (bs.map write).mapM read = .ok bs :=
  mapM_eq_ok_iff.mpr (List.forall₂_map_left_iff.mpr (List.forall₂_same.mpr h))

end Items

/-! ## Testing each item of a list -/

section Filters

variable {test test' : α → Except ε Bool} {xs ys : List α}

theorem filterM_eq_ok {p : α → Bool} (h : ∀ x ∈ xs, test x = .ok (p x)) :
    xs.filterM test = .ok (xs.filter p) := by
  have haux (acc : List α) : xs.filterAuxM test acc = .ok ((xs.filter p).reverse ++ acc) := by
    induction xs generalizing acc with
    | nil => rfl
    | cons x xs ih =>
      obtain ⟨hx, hxs⟩ := List.forall_mem_cons.mp h
      rw [List.filterAuxM, hx]
      refine (ih hxs _).trans ?_
      cases hp : p x <;> simp [hp]
  rw [List.filterM, haux]
  simp [bind, Except.bind, pure, Except.pure]

/-- A filter gives a result exactly if each item can be tested. -/
theorem exists_filterM_eq_ok_iff :
    (∃ ys, xs.filterM test = .ok ys) ↔ ∀ x ∈ xs, ∃ b, test x = .ok b := by
  constructor
  · rintro ⟨ys, h⟩
    obtain ⟨found, hfound, -⟩ := Except.bind_eq_ok_iff.mp h
    clear h
    generalize ([] : List α) = acc at hfound
    induction xs generalizing acc with
    | nil => simp
    | cons x xs ih =>
      obtain ⟨b, hx, hrest⟩ := Except.bind_eq_ok_iff.mp hfound
      exact List.forall_mem_cons.mpr ⟨⟨b, hx⟩, ih _ hrest⟩
  · exact fun h => ⟨_, filterM_eq_ok fun x hx => eq_ok_getD (h x hx) false⟩

theorem filterM_eq_ok_iff : xs.filterM test = .ok ys ↔
    ∃ p : α → Bool, (∀ x ∈ xs, test x = .ok (p x)) ∧ ys = xs.filter p := by
  constructor
  · intro h
    have htest (x : α) (hx : x ∈ xs) :=
      eq_ok_getD (exists_filterM_eq_ok_iff.mp ⟨ys, h⟩ x hx) false
    exact ⟨_, htest, Except.ok.inj (h.symm.trans (filterM_eq_ok htest))⟩
  · rintro ⟨p, hp, rfl⟩
    exact filterM_eq_ok hp

theorem filterM_congr (h : ∀ x ∈ xs, test x = test' x) : xs.filterM test = xs.filterM test' := by
  have haux (acc : List α) : xs.filterAuxM test acc = xs.filterAuxM test' acc := by
    induction xs generalizing acc with
    | nil => rfl
    | cons x xs ih =>
      obtain ⟨hx, hxs⟩ := List.forall_mem_cons.mp h
      rw [List.filterAuxM, List.filterAuxM, hx]
      exact bind_congr fun _ => ih hxs _
  rw [List.filterM, List.filterM, haux]

end Filters

end IdlCompiler
