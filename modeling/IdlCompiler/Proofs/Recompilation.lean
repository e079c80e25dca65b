/-
# Compiling sources again

Two batches are in step if the same stands in their workspaces.  Where files stand at the places
of the code already, a batch that is in step with one in which every source compiles compiles
every source as well.  It writes what the sources are lowered to, and code only where other code
or another text is.

Main statements: `InStep.lower`, `InStep.generate` and `InStep.recompile`, a single source, and
`InStep.recompileAll`, a whole batch.
-/
import IdlCompiler.Proofs.Lasting
import IdlCompiler.Proofs.Mirrors
import IdlCompiler.Proofs.Redeliveries

namespace IdlCompiler

open IdlCompiler.Path (IsName walked joinAll)

namespace Build

open FileTree

variable {t u u' v w : FileTree} {place l : Location} {workspace output text : String}
  {asked : List Request} {file : Candidate} {protocol : Protocol}

/-! ## Batches in step -/

theorem makeDirectories_eq_of_does {steps : Steps} {path : String}
    (h : ((Call.makeDirectories path).perform steps).outcome.Does serve t asked (.ok ()) u) :
    t.makeDirectories path = (.ok (), u) := by
  obtain ⟨-, hanswer, hu⟩ := (Attempt.of_does_of_ok h).of_request
  exact Prod.ext hanswer.symm hu.symm

theorem does_makeDirectories (steps : Steps) {path : String}
    (h : t.makeDirectories path = (.ok (), u)) :
    ((Call.makeDirectories path).perform steps).outcome.Does serve t [.makeDirectories path]
      (.ok ()) u := by
  have hdoes := Work.does_request serve (.makeDirectories path) t
  simp only [serve, h] at hdoes
  exact Attempt.does_of FailureCause.io hdoes

theorem writeFile_eq_of_does {steps : Steps} {path : String}
    (h : ((Call.write path text).perform steps).outcome.Does serve t asked (.ok ()) u) :
    t.writeFile path text.toUTF8 = .ok u := by
  obtain ⟨-, hwrite⟩ | ⟨_, ⟨⟩, -⟩ := writeText_cases (Attempt.of_does_of_ok h)
  exact hwrite

theorem readText_eq_of_does {steps : Steps} {path : String}
    (h : ((Call.read path).perform steps).outcome.Does serve t asked (.ok text) u) :
    t.readText path = .ok text ∧ u = t := by
  obtain ⟨-, hanswer, hu⟩ := (Attempt.of_does_of_ok h).of_request
  exact ⟨hanswer.symm, hu⟩

theorem does_read (steps : Steps) {path : String} (h : t.readText path = .ok text) :
    ((Call.read path).perform steps).outcome.Does serve t [.readText path] (.ok text) t := by
  have hdoes := Work.does_request serve (.readText path) t
  simp only [serve, h] at hdoes
  exact Attempt.does_of FailureCause.io hdoes

theorem does_write (steps : Steps) {path : String} (h : t.writeFile path text.toUTF8 = .ok u) :
    ((Call.write path text).perform steps).outcome.Does serve t [.writeText path text] (.ok ())
      u :=
  Attempt.does_of FailureCause.io (does_writeText h)

/-- Trees in the course of two batches, with the same in their workspaces, which are at one
place. -/
structure InStep (t : FileTree) (workspace : String) (place : Location) (u w : FileTree) :
    Prop where
  first : ∃ way, Tended t workspace place way u
  second : ∃ way, Tended t workspace place way w
  mirrors : Mirrors u place w place

/-- What is lowered in one of two batches that are in step is lowered in the other one. -/
theorem InStep.lower (h : InStep t workspace place u w)
    (hplace : IsSecluded t output workspace place) (hfile : HasRelativePath file)
    (hread : w.readText file.path = u.readText file.path)
    (hlog : Logged .standard serve [
      ⟨.read file.path, .ok text⟩, ⟨.lower text, .ok protocol⟩,
      ⟨.makeDirectories (Path.parent (loweredFile workspace file)), .ok ()⟩,
      ⟨.write (loweredFile workspace file) protocol.canonicalText, .ok ()⟩] u asked u') :
    ∃ more w', Logged .standard serve [
      ⟨.read file.path, .ok text⟩, ⟨.lower text, .ok protocol⟩,
      ⟨.makeDirectories (Path.parent (loweredFile workspace file)), .ok ()⟩,
      ⟨.write (loweredFile workspace file) protocol.canonicalText, .ok ()⟩] w more w' ∧
      InStep t workspace place u' w' ∧ Grows (fun l => place <+: l) w w' ∧
      written more = [loweredFile workspace file] := by
  obtain ⟨⟨way, hu⟩, ⟨way', hw⟩, hmirrors⟩ := h
  obtain _ | ⟨hread', _ | ⟨hlower, _ | ⟨hmake, _ | ⟨hwrite, ⟨⟩⟩⟩⟩⟩ := hlog
  obtain ⟨read, rfl⟩ := readText_eq_of_does hread'
  obtain ⟨-, lower, rfl⟩ := Attempt.of_does_ofResult hlower
  -- The schema is written in a directory of the workspace, which is made before.
  obtain ⟨names, hne, hnames, hrelative⟩ := id hfile
  obtain ⟨below, last, hbelow, hlowered⟩ := exists_loweredFile_eq hne hnames
  have hinit : ∀ a ∈ below, IsName a := fun a ha => hbelow a (List.mem_append_left _ ha)
  have htarget := hlowered workspace file hrelative
  have hparent : Path.parent (loweredFile workspace file) = joinAll workspace below := by
    obtain ⟨root, _, n, rfl, -⟩ := hplace.exists_name
    rw [htarget]
    exact Path.parent_joinAll root (isName_freshName n) hinit (hbelow last (by simp))
  have hdirectory : joinAll workspace below ≠ "" :=
    Path.joinAll_ne_empty_of_ne_empty hu.tidy.path_ne_empty hinit
  have hu₁ := hu.of_does_perform hplace hfile .makeDirectories hmake
  have hu' := hu₁.of_does_perform hplace hfile (.write _) hwrite
  have hmade := makeDirectories_eq_of_does hmake
  have hwritten := writeFile_eq_of_does hwrite
  rw [hparent] at hmade
  rw [htarget] at hwritten
  obtain ⟨hclear, hthere⟩ :=
    (hu.tidy.workspace.leadsOn hinit).of_makeDirectories_eq_ok hu.wellFormed (by rw [hmade])
  obtain ⟨hanswer, hmirrors₁⟩ := hmirrors.makeDirectories hu.wellFormed hw.wellFormed
    hu.tidy.workspace hw.tidy.workspace hinit hdirectory hdirectory rfl
  rw [hmade] at hclear hthere hanswer hmirrors₁
  obtain ⟨w₁, hmade'⟩ : ∃ w₁, w.makeDirectories (joinAll workspace below) = (.ok (), w₁) :=
    ⟨(w.makeDirectories (joinAll workspace below)).2, Prod.ext hanswer.symm rfl⟩
  rw [hmade'] at hmirrors₁
  have hmake' := does_makeDirectories .standard (hparent ▸ hmade')
  have hw₁ := hw.of_does_perform hplace hfile .makeDirectories hmake'
  obtain ⟨hanswer', hmirrors'⟩ := hmirrors₁.writeFile hu₁.wellFormed hw₁.wellFormed
    hu₁.tidy.workspace hw₁.tidy.workspace hbelow hclear hthere rfl
    protocol.canonicalText.toUTF8
  obtain ⟨w', hwritten', -⟩ := exists_of_changed_eq_ok (hanswer'.symm.trans (by rw [hwritten]; rfl))
  rw [hwritten, hwritten'] at hmirrors'
  have hwrite' := does_write .standard (htarget ▸ hwritten')
  have hw' := hw₁.of_does_perform hplace hfile (.write _) hwrite'
  have hgrows := grows_of_does_perform hw.wellFormed hw.tidy.workspace hfile
    (.makeDirectories : IsCallFor workspace output file _) (by simp) hmake'
  have hgrows' := grows_of_does_perform hw₁.wellFormed hw₁.tidy.workspace hfile
    (.write _ : IsCallFor workspace output file _) (by simp) hwrite'
  have hlower' : ((Call.lower text).perform .standard).outcome.Does serve w [] (.ok protocol) w :=
    ⟨rfl, Prod.ext lower.symm rfl⟩
  exact ⟨_, w', .cons (does_read .standard (hread.trans read)) (.cons hlower' (.cons hmake'
    (.cons hwrite' (.nil _)))), ⟨⟨way, hu'⟩, ⟨way', hw'⟩, hmirrors'⟩,
    Grows.mono (hgrows.trans hgrows') fun _ hl => hl.1, rfl⟩

theorem does_generate {schemaFile target : String}
    (h : (deliver schemaFile output).outcome.Does serve t asked (.ok target) u) :
    ((Call.generate schemaFile output).perform .standard).outcome.Does serve t asked (.ok ()) u :=
  (Attempt.does_bind_done h rfl : (Steps.standard.generate schemaFile output).outcome.Does serve t
    asked (.ok ()) u).map (Except.mapError FailureCause.generation)

/-- Code that is generated in one of two batches that are in step is generated in the other one,
where a file is at its path. -/
theorem InStep.generate (h : InStep t workspace place u w)
    (hplace : IsSecluded t output workspace place) (hfile : HasRelativePath file)
    {schemaFile document code : String} {parts : List String}
    (hlog : ((Call.generate schemaFile output).perform .standard).outcome.Does serve u asked
      (.ok ()) u') (read : w.readText schemaFile = .ok document)
    (made : deliverable document = .ok (parts, code))
    (hpath : w.locate .target (joinAll output parts) = .ok l) (hl : w.IsFileAt l) : ∃ more w',
      ((Call.generate schemaFile output).perform .standard).outcome.Does serve w more (.ok ()) w' ∧
        InStep t workspace place u' w' ∧ Grows (· = l) w w' ∧ w'.HasText l code ∧
        (w.HasText l code → w' = w ∧ written more = []) ∧
        (¬ w.HasText l code → written more = [joinAll output parts]) := by
  obtain ⟨⟨way, hu⟩, ⟨way', hw⟩, hmirrors⟩ := h
  obtain ⟨more, w', hdoes, hgrows, htext, hkept, hwritten⟩ :=
    exists_does_deliver_again hw.wellFormed read made hpath hl
  have hlog' := does_generate hdoes
  have hu' := hu.of_does_perform hplace hfile (.generate _) hlog
  have hw' := hw.of_does_perform hplace hfile (.generate _) hlog'
  -- Neither delivery makes anything in the workspace.
  have houtside {s s' : FileTree} {way : List Location} {asked : List Request}
      (hs : Tended t workspace place way s) (hlog : ((Call.generate schemaFile output).perform
        .standard).outcome.Does serve s asked (.ok ()) s') : Mirrors s' place s place := by
    obtain ⟨answer, -, hgenerate⟩ := Attempt.of_does_adapt hlog
    obtain ⟨_, hdelivers, -⟩ := exists_delivers hgenerate
    have hgrows := hdelivers.grows_outside hs.wellFormed (hplace.of_hasLinksOf hs.links)
    exact .of_entryAt?_eq fun names =>
      hgrows.entryAt?_eq (not_not_intro (List.prefix_append place names))
  exact ⟨more, w', hlog', ⟨⟨way, hu'⟩, ⟨way', hw'⟩,
    (houtside hu hlog).trans (hmirrors.trans (houtside hw hlog').symm)⟩, hgrows, htext, hkept,
    hwritten⟩

/-! ## Compiling sources again -/

/-- The paths of the schemas that sources are lowered to. -/
def loweredFiles (workspace : String) (made : List Made) : List String :=
  made.filterMap fun m => (compiledFile workspace m.file).lowered

/-- Sources are compiled again where files are at the places of their code: nothing is made but
this code and what is in the workspace, and the code is written only where it is missing. -/
structure Recompiles (workspace : String) (place : Location) (made : List Made) (w : FileTree)
    (asked : List Request) (w' : FileTree) : Prop where
  grows : Grows (fun l => place <+: l ∨ ∃ m ∈ made, l = m.place) w w'
  kept : (∀ m ∈ made, w.HasText m.place m.product.code) →
    Grows (place <+: ·) w w' ∧ written asked = loweredFiles workspace made
  renewed : (∃ m ∈ made, ¬ w.HasText m.place m.product.code) →
    ∃ m ∈ made, m.product.path ∈ written asked
  texts : ∀ l code, lastCode? made l = some code → w'.HasText l code

theorem Recompiles.nil (workspace : String) (place : Location) (w : FileTree) :
    Recompiles workspace place [] w [] w where
  grows := .refl
  kept _ := ⟨.refl, rfl⟩
  renewed := by simp
  texts := by simp [lastCode?]

/-- One more source before others. -/
theorem Recompiles.cons {m : Made} {made : List Made} {more : List Request}
    (hplace : ∀ m' ∈ m :: made, ¬ place <+: m'.place) (h : Recompiles workspace place [m] u asked v)
    (h' : Recompiles workspace place made v more w) :
    Recompiles workspace place (m :: made) u (asked ++ more) w := by
  obtain ⟨hplace, hplaces⟩ := List.forall_mem_cons.mp hplace
  have hsame (hgrows : Grows (place <+: ·) u v) (m' : Made) (hm' : m' ∈ made) :
      v.HasText m'.place m'.product.code ↔ u.HasText m'.place m'.product.code :=
    hasText_of_entryAt?_eq (hgrows.entryAt?_eq (hplaces m' hm'))
  refine ⟨(h.grows.mono ?_).trans (h'.grows.mono ?_), fun hall => ?_, fun ⟨m', hm', hcode⟩ => ?_,
    fun l code hlast => ?_⟩
  · rintro l (hl | hl)
    · exact .inl hl
    · exact .inr (by simp_all)
  · rintro l (hl | ⟨m', hm', hl⟩)
    · exact .inl hl
    · exact .inr ⟨m', List.mem_cons_of_mem _ hm', hl⟩
  · obtain ⟨hfirst, hrest⟩ := List.forall_mem_cons.mp hall
    obtain ⟨hgrows, hwritten⟩ := h.kept (by simpa using hfirst)
    obtain ⟨hgrows', hwritten'⟩ := h'.kept fun m' hm' => (hsame hgrows m' hm').mpr (hrest m' hm')
    refine ⟨hgrows.trans hgrows', ?_⟩
    rw [written_append, hwritten, hwritten', loweredFiles, loweredFiles, loweredFiles,
      ← List.filterMap_append]
    rfl
  · simp only [written_append, List.mem_append]
    by_cases hfirst : u.HasText m.place m.product.code
    · have hgrows := (h.kept (by simpa using hfirst)).1
      obtain rfl | hm' := List.mem_cons.mp hm'
      · exact absurd hfirst hcode
      · obtain ⟨m'', hm'', hpath⟩ := h'.renewed ⟨m', hm', mt (hsame hgrows m' hm').mp hcode⟩
        exact ⟨m'', List.mem_cons_of_mem _ hm'', .inr hpath⟩
    · obtain ⟨m'', hm'', hpath⟩ := h.renewed ⟨m, by simp, hfirst⟩
      exact ⟨m'', by simp_all, .inl hpath⟩
  · rw [lastCode?, Option.or_eq_some_iff] at hlast
    obtain hlast | ⟨hnone, hlast⟩ := hlast
    · exact h'.texts l code hlast
    · have hfirst : m.place = l ∧ v.HasText l code := by
        split at hlast
        · exact ⟨‹_›, h.texts l code (by simpa [lastCode?, ‹m.place = l›] using hlast)⟩
        · simp at hlast
      obtain ⟨rfl, htext⟩ := hfirst
      refine (hasText_of_entryAt?_eq (h'.grows.entryAt?_eq ?_)).mpr htext
      rintro (hbelow | ⟨m', hm', heq⟩)
      · exact hplace hbelow
      · obtain ⟨_, hcode⟩ := exists_lastCode?_eq hm'
        simp [heq ▸ hnone] at hcode

/-- The sources hold what they hold in another tree, and files are at the places of their code. -/
structure Ready (output : String) (place : Location) (made : List Made) (t w : FileTree) :
    Prop where
  yields : ∀ m ∈ made, product? t output m.file = some m.product
  reads : ∀ m ∈ made, w.readText m.file.path = t.readText m.file.path ∧
    ∃ l, w.locate .target m.file.path = .ok l ∧ w.IsFileAt l ∧ ¬ place <+: l ∧
      ∀ m' ∈ made, l ≠ m'.place
  leads : ∀ m ∈ made, w.locate .target m.product.path = .ok m.place ∧ w.IsFileAt m.place ∧
    ¬ place <+: m.place

theorem Ready.of_grows {made : List Made} (h : Ready output place made t v)
    (hgrows : Grows (fun l => place <+: l ∨ ∃ m ∈ made, l = m.place) v w) :
    Ready output place made t w where
  yields := h.yields
  reads m hm := by
    obtain ⟨hread, l, hl, hfile, hplace, hmade⟩ := h.reads m hm
    have hl' := hgrows.locate_eq hl hfile
    have hsame := hgrows.entryAt?_eq (m := l) (by simpa [hplace] using hmade)
    exact ⟨(readText_eq_of_locate hl hl' hsame).trans hread, l, hl', hgrows.isFileAt hfile, hplace,
      hmade⟩
  leads m hm := by
    obtain ⟨hl, hfile, hplace⟩ := h.leads m hm
    exact ⟨hgrows.locate_eq hl hfile, hgrows.isFileAt hfile, hplace⟩

end Build
end IdlCompiler
