/-
# What compiling sources does to a file tree

A source that compiles leaves its code where the path of its code leads, and the texts of all
other files outside the workspace are what they were.  So a file holds the code that is written
to it last.  No source is read after its text has been replaced by code, as code yields nothing.

Main statements: `exists_compiles`, a single source; `CompilesAll.hasText_iff` and
`CompilesAll.product?_eq`, all sources of a batch.
-/
import IdlCompiler.Proofs.Confinement
import IdlCompiler.Proofs.Products

namespace IdlCompiler.Build

open FileTree

variable {t u v : FileTree} {place l : Location} {workspace output text : String}
  {way : List Location} {asked : List Request}

/-! ## A single source -/

/-- Code that is made in a run: the source that it is made of, and the place that its path
leads to. -/
structure Made where
  file : Candidate
  product : Product
  place : Location

/-- A source is compiled.  The workspace is at a place. -/
structure Compiles (output : String) (place : Location) (m : Made) (t u : FileTree) : Prop where
  yields : product? t output m.file = some m.product
  grows : Grows (fun _ => True) t u
  leads : u.locate .target m.product.path = .ok m.place
  holds : u.HasText m.place m.product.code
  others : ∀ l ≠ m.place, ¬ place <+: l → ∀ text, u.HasText l text ↔ t.HasText l text

/-- The generator makes the product of a document where the path leads. -/
theorem exists_made_of_generate (ht : t.WellFormed) {schemaFile : String}
    (h : ((Call.generate schemaFile output).perform .standard).outcome.Does serve t asked (.ok ())
      u) :
    ∃ document parts code l, t.readText schemaFile = .ok document ∧
      deliverable document = .ok (parts, code) ∧ Grows (fun _ => True) t u ∧
      u.locate .target (Path.joinAll output parts) = .ok l ∧ u.HasText l code ∧
      ∀ m ≠ l, ∀ other, u.HasText m other ↔ t.HasText m other := by
  obtain ⟨answer, hanswer, hdoes⟩ := Attempt.of_does_adapt h
  obtain ⟨result, hdelivers, hok⟩ := exists_delivers hdoes
  obtain ⟨target, rfl⟩ := hok (eq_ok_of_mapError hanswer.symm)
  obtain ⟨document, parts, code, l, hread, hmade, rfl, hl, htext, hothers⟩ := hdelivers.hasText ht
  exact ⟨document, parts, code, l, hread, hmade, (hdelivers.grows ht).mono fun _ _ => trivial, hl,
    htext, hothers⟩

/-- Lowering a source writes its canonical document into the workspace and nothing else. -/
theorem lowers_of_logged (ht : t.WellFormed) (hworkspace : t.IsWorkspace workspace place way)
    {file : Candidate} (hfile : HasRelativePath file) {protocol : Protocol}
    (h : Logged .standard serve [
      ⟨.read file.path, .ok text⟩, ⟨.lower text, .ok protocol⟩,
      ⟨.makeDirectories (Path.parent (loweredFile workspace file)), .ok ()⟩,
      ⟨.write (loweredFile workspace file) protocol.canonicalText, .ok ()⟩] t asked u) :
    t.readText file.path = .ok text ∧ Protocol.ofIdl text = .ok protocol ∧
      Grows (fun l => place <+: l ∧ l ≠ place) t u ∧
      u.readText (loweredFile workspace file) = .ok protocol.canonicalText := by
  have hcall {c : Call} (h : IsCallFor workspace "" file c) := h
  obtain _ | ⟨hread, _ | ⟨hlower, _ | ⟨hmake, _ | ⟨hwrite, ⟨⟩⟩⟩⟩⟩ := h
  obtain ⟨-, read, hs₁⟩ := (Attempt.of_does_of_ok hread).of_request
  obtain ⟨-, lower, hs₂⟩ := Attempt.of_does_ofResult hlower
  obtain rfl := hs₂.trans hs₁
  have hmade := grows_of_does_perform ht hworkspace hfile (hcall .makeDirectories) (by simp) hmake
  have ht' := hmade.changes.wellFormed ht
  have hwritten := grows_of_does_perform ht' (hworkspace.of_grows hmade) hfile (hcall (.write _))
    (by simp) hwrite
  obtain ⟨-, writes⟩ | ⟨_, ⟨⟩, -⟩ := writeText_cases (Attempt.of_does_of_ok hwrite)
  obtain ⟨l, -, -, hl, htext⟩ := writeFile_hasText ht' writes
  exact ⟨read.symm, eq_ok_of_mapError lower.symm, hmade.trans hwritten,
    readText_eq_ok_iff.mpr ⟨l, hl, htext⟩⟩

/-- **A source that compiles leaves its code where the path of its code leads.** -/
theorem exists_compiles (ht : t.WellFormed) (hworkspace : t.IsWorkspace workspace place way)
    {file : Candidate} (hfile : HasRelativePath file) {protocol : Protocol}
    (h : Logged .standard serve (sourceLog workspace output file text protocol) t asked u) :
    ∃ m : Made, m.file = file ∧ Compiles output place m t u := by
  rw [sourceLog] at h
  cases hstage : Stage.ofPath file.relative with
  | canonicalSchema =>
    rw [hstage] at h
    obtain _ | ⟨hgenerate, ⟨⟩⟩ := h
    obtain ⟨document, parts, code, l, hread, hmade, hgrows, hl, htext, hothers⟩ :=
      exists_made_of_generate ht hgenerate
    refine ⟨⟨file, ⟨Path.joinAll output parts, code⟩, l⟩, rfl, ?_, hgrows, hl, htext,
      fun m hm _ => hothers m hm⟩
    refine product?_eq_some_iff.mpr ⟨document, hread, hstage ▸ ?_⟩
    exact productOf?_eq_some_iff.mpr ⟨document, parts, rfl, hmade, rfl⟩
  | interfaceDefinition =>
    rw [hstage] at h
    change Logged _ _ ([_, _, _, _] ++ [_]) _ _ _ at h
    obtain ⟨_, v, _, -, hlog, hlast⟩ := h.of_append
    obtain _ | ⟨hgenerate, ⟨⟩⟩ := hlast
    obtain ⟨hread, hlower, hgrows, hdocument⟩ := lowers_of_logged ht hworkspace hfile hlog
    have hv := hgrows.changes.wellFormed ht
    obtain ⟨document, parts, code, l, hdocument', hmade, hgrows', hl, htext, hothers⟩ :=
      exists_made_of_generate hv hgenerate
    obtain rfl := Except.ok.inj (hdocument.symm.trans hdocument')
    refine ⟨⟨file, ⟨Path.joinAll output parts, code⟩, l⟩, rfl, ?_, ?_, hl, htext, ?_⟩
    · refine product?_eq_some_iff.mpr ⟨text, hread, hstage ▸ ?_⟩
      exact productOf?_eq_some_iff.mpr ⟨_, parts, by rw [documentOf, hlower]; rfl, hmade, rfl⟩
    · exact (hgrows.mono fun _ _ => trivial).trans hgrows'
    · intro m hm hplace other
      rw [hothers m hm, hasText_of_entryAt?_eq (hgrows.entryAt?_eq fun h => hplace h.1)]

/-! ## All sources of a batch -/

/-- Sources are compiled one after the other. -/
inductive CompilesAll (output : String) (place : Location) : List Made → FileTree → FileTree → Prop
  | nil {t : FileTree} : CompilesAll output place [] t t
  | cons {m : Made} {made : List Made} {t u v : FileTree} (first : Compiles output place m t u)
      (rest : CompilesAll output place made u v) : CompilesAll output place (m :: made) t v

theorem exists_compilesAll (ht : t.WellFormed) (hworkspace : t.IsWorkspace workspace place way)
    {files : List Candidate} (hfiles : ∀ file ∈ files, HasRelativePath file)
    {logs : List (List Reply)} (hlogs : List.Forall₂ (Completes workspace output) files logs)
    (h : Logged .standard serve logs.flatten t asked u) :
    ∃ made, made.map Made.file = files ∧ CompilesAll output place made t u := by
  induction hlogs generalizing t asked with
  | nil =>
    cases h
    exact ⟨[], rfl, .nil⟩
  | cons hfirst _ ih =>
    obtain ⟨text, protocol, rfl⟩ := hfirst
    obtain ⟨hfile, hothers⟩ := List.forall_mem_cons.mp hfiles
    obtain ⟨_, v, _, -, hlog, hrest⟩ := h.of_append
    obtain ⟨m, rfl, hm⟩ := exists_compiles ht hworkspace hfile hlog
    obtain ⟨made, rfl, hmade⟩ := ih (hm.grows.changes.wellFormed ht)
      (hworkspace.of_grows hm.grows) hothers hrest
    exact ⟨m :: made, rfl, .cons hm hmade⟩

variable {made : List Made}

theorem CompilesAll.grows (h : CompilesAll output place made t u) : Grows (fun _ => True) t u := by
  induction h with
  | nil => exact .refl
  | cons first _ ih => exact first.grows.trans ih

/-- Every path leads to its code as long as nothing is removed. -/
theorem CompilesAll.leads (h : CompilesAll output place made t u) :
    ∀ m ∈ made, u.locate .target m.product.path = .ok m.place := by
  induction h with
  | nil => simp
  | cons first rest ih =>
    refine List.forall_mem_cons.mpr ⟨rest.grows.locate_eq first.leads ?_, ih⟩
    obtain ⟨content, modified, hentry, -⟩ := first.holds
    exact ⟨content, modified, hentry⟩

/-! ## What files hold -/

/-- The code that is written last at a place, if any is. -/
def lastCode? : List Made → Location → Option String
  | [], _ => none
  | m :: made, l => (lastCode? made l).or (if m.place = l then some m.product.code else none)

theorem exists_of_lastCode? {code : String} (h : lastCode? made l = some code) :
    ∃ m ∈ made, m.place = l ∧ m.product.code = code := by
  induction made with
  | nil => simp [lastCode?] at h
  | cons m made ih =>
    rw [lastCode?, Option.or_eq_some_iff] at h
    rcases h with h | ⟨-, h⟩
    · obtain ⟨m', hm', hcode⟩ := ih h
      exact ⟨m', List.mem_cons_of_mem _ hm', hcode⟩
    · split at h
      · rename_i hm
        exact ⟨m, List.mem_cons_self, hm, Option.some.inj h⟩
      · simp at h

theorem exists_lastCode?_eq {m : Made} (hm : m ∈ made) :
    ∃ code, lastCode? made m.place = some code := by
  induction made with
  | nil => simp at hm
  | cons first made ih =>
    rw [lastCode?]
    rcases List.mem_cons.mp hm with rfl | hm
    · cases lastCode? made m.place <;> simp
    · obtain ⟨code, hcode⟩ := ih hm
      exact ⟨code, by rw [hcode, Option.some_or]⟩

/-- All code is the last at its place exactly if no two sources have different code at one place. -/
theorem forall_lastCode?_eq_iff :
    (∀ m ∈ made, lastCode? made m.place = some m.product.code) ↔
      ∀ m ∈ made, ∀ m' ∈ made, m.place = m'.place → m.product.code = m'.product.code := by
  constructor
  · intro h m hm m' hm' hplace
    exact Option.some.inj ((h m hm).symm.trans (hplace ▸ h m' hm'))
  · intro h m hm
    obtain ⟨code, hcode⟩ := exists_lastCode?_eq hm
    obtain ⟨m', hm', hplace, rfl⟩ := exists_of_lastCode? hcode
    rw [hcode, h m' hm' m hm hplace]

/-- **A file has the code that is written to it last**, and the text that it had if no code is
written to it. -/
theorem CompilesAll.hasText_iff (h : CompilesAll output place made t u) (hl : ¬ place <+: l) :
    u.HasText l text ↔ match lastCode? made l with
      | some code => text = code
      | none => t.HasText l text := by
  induction h with
  | nil => rfl
  | @cons m made t v u first _ ih =>
    rw [ih, lastCode?]
    cases lastCode? made l with
    | some code => rfl
    | none =>
      by_cases hm : m.place = l
      · subst hm
        simp only [Option.none_or, if_pos]
        exact ⟨fun h => h.unique first.holds, fun h => h ▸ first.holds⟩
      · simp only [Option.none_or, if_neg hm]
        exact first.others l (Ne.symm hm) hl text

/-! ## What sources hold -/

/-- A tree comes from another one, and the texts in it are old ones or code. -/
structure Derives (place : Location) (t u : FileTree) : Prop where
  grows : Grows (fun _ => True) t u
  texts : ∀ l, ¬ place <+: l → ∀ text, u.HasText l text → t.HasText l text ∨ IsGenerated text

theorem Derives.of_compiles (h : Derives place t u) {m : Made} (hm : Compiles output place m u v) :
    Derives place t v := by
  refine ⟨h.grows.trans hm.grows, fun l hl text htext => ?_⟩
  by_cases hplace : l = m.place
  · subst hplace
    exact .inr (htext.unique hm.holds ▸ isGenerated_of_product? hm.yields)
  · exact h.texts l hl text ((hm.others l hplace hl text).mp htext)

/-- A source that yields something holds in a later tree what it holds from the start. -/
theorem Derives.readText_eq (ht : t.WellFormed) (h : Derives place t u)
    (hvacant : ∀ l, place <+: l → t.entryAt? l = none) {root : String} {file : Candidate}
    {names : List String} {entry : Entry} (hsource : IsSource t root file names l entry)
    {p : Product} (hp : product? u output file = some p) :
    u.readText file.path = t.readText file.path := by
  obtain ⟨text, hread, hp⟩ := product?_eq_some_iff.mp hp
  obtain ⟨m, hm, htext⟩ := readText_eq_ok_iff.mp hread
  obtain ⟨hm', content, modified, hentry⟩ := hsource.locate_eq ht h.grows hm
  have hplace : ¬ place <+: m := fun hbelow => by simp [hvacant m hbelow] at hentry
  rcases h.texts m hplace text htext with hold | hcode
  · rw [hread, readText_eq_ok_iff.mpr ⟨m, hm', hold⟩]
  · rw [productOf?_eq_none_of_isGenerated hcode] at hp
    simp at hp

/-- A source yields in a later tree what it yields from the start. -/
theorem Derives.product?_eq (ht : t.WellFormed) (h : Derives place t u)
    (hvacant : ∀ l, place <+: l → t.entryAt? l = none) {root : String} {file : Candidate}
    {names : List String} {entry : Entry} (hsource : IsSource t root file names l entry)
    {p : Product} (hp : product? u output file = some p) : product? t output file = some p := by
  rw [← hp, product?, product?, h.readText_eq ht hvacant hsource hp]

/-- **Every source yields what it yields from the start.** -/
theorem CompilesAll.product?_eq (ht : t.WellFormed) (h : Derives place t u)
    (hvacant : ∀ l, place <+: l → t.entryAt? l = none)
    (hsources : ∀ m ∈ made, ∃ root names l entry, IsSource t root m.file names l entry)
    (hmade : CompilesAll output place made u v) :
    ∀ m ∈ made, product? t output m.file = some m.product := by
  induction hmade with
  | nil => simp
  | cons first _ ih =>
    obtain ⟨⟨root, names, l, entry, hsource⟩, hsources⟩ := List.forall_mem_cons.mp hsources
    exact List.forall_mem_cons.mpr ⟨h.product?_eq ht hvacant hsource first.yields,
      ih (h.of_compiles first) hsources⟩

end IdlCompiler.Build
