/-
# The paths of generated files

The file of a module lies below the output directory: its path is that of the directory, with
a name behind it for every segment of the namespace and a last one for the module.  All of them
are identifiers, apart from the extension, so that none leads up, is empty or has a slash in it,
whatever the texts are that the protocol has for its name and its namespace.

Main statements: `Resolved.outputParts_stay_below`, about the path as a text, and
`eq_append_of_locate_output`, about the place that it leads to.
-/
import IdlCompiler.Proofs.Deliveries
import IdlCompiler.Proofs.Directories
import IdlCompiler.Proofs.Sources
import IdlCompiler.Proofs.Spelling

namespace IdlCompiler

open IdlCompiler.Path (IsName walked join joinAll)

variable {output : String} {parts : List String}

/-! ## Protocols whose modules have a place -/

theorem Protocol.WellFormed.isIdentifier_segment {p : Protocol} (hp : p.WellFormed) :
    ∀ segment ∈ (Resolved.ofProtocol p).segments, Name.isIdentifier segment := by
  have hspace := hp.isDotted
  change ∀ segment ∈ (p.space.map Name.segments).getD [], Name.isIdentifier segment
  cases h : p.space with
  | none => simp
  | some space => exact List.all_eq_true.mp (hspace space h)

/-- The module of a well-formed protocol has a place. -/
theorem Protocol.WellFormed.exists_outputParts_eq {p : Protocol} (hp : p.WellFormed) :
    ∃ parts, (Resolved.ofProtocol p).outputParts = .ok parts :=
  ⟨_, Resolved.outputParts_eq_ok_iff.mpr
    ⟨hp.isIdentifier_segment, Target.Name.isIdentifier_snakeCase hp.isIdentifier, rfl⟩⟩

/-! ## Paths below the output directory -/

/-- **The file of a module lies below the output directory**, in a directory for each segment of
the namespace, whatever the protocol is; and the module of a protocol that is accepted has such a
file. -/
theorem Resolved.outputParts_stay_below :
    (∀ (r : Resolved) (parts : List String), r.outputParts = .ok parts →
      parts = (r.space.map Name.segments).getD [] ++ [r.moduleName ++ ".rs"] ∧
      (∀ segment ∈ (r.space.map Name.segments).getD [], Name.isIdentifier segment) ∧
      Name.isIdentifier r.moduleName ∧ (∀ a ∈ parts, IsName a) ∧
      ∀ output, joinAll output parts = join output ("/".intercalate parts) ∧
        walked (joinAll output parts) = walked output ++ parts) ∧
    ∀ p : Protocol, p.validate = .ok () →
      ∃ parts, (Resolved.ofProtocol p).outputParts = .ok parts := by
  refine ⟨fun r parts h => ?_, fun p hp => ?_⟩
  · have hnames (a : String) (ha : a ∈ parts) : IsName a := (isPartName_of_outputParts h a ha).1
    obtain ⟨hsegments, hmodule, hparts⟩ := outputParts_eq_ok_iff.mp h
    have hne : parts ≠ [] := by simp [hparts]
    refine ⟨hparts, hsegments, hmodule, hnames, fun output => ⟨?_, Path.walked_joinAll hnames⟩⟩
    exact (Build.join_relativePath output hne hnames).symm
  · exact (Protocol.validate_eq_ok_iff.mp hp).exists_outputParts_eq

/-- A protocol with two words in its name and two segments in its namespace. -/
def pingPong : Protocol := { name := "PingPong", space := some "org.example" }

/-- The module of `pingPong` lies two directories down. -/
theorem pingPong_stays_below : pingPong.validate = .ok () ∧
    (Resolved.ofProtocol pingPong).outputParts = .ok ["org", "example", "ping_pong.rs"] ∧
    joinAll "out/" ["org", "example", "ping_pong.rs"] = "out/org/example/ping_pong.rs" := by
  have hvalid : pingPong.validate = .ok () := by decide +kernel
  obtain ⟨hbelow, hall⟩ := Resolved.outputParts_stay_below
  obtain ⟨parts, hparts⟩ := hall pingPong hvalid
  obtain ⟨rfl, -, -, -, houtput⟩ := hbelow _ parts hparts
  exact ⟨hvalid, hparts, (houtput "out/").1⟩

namespace FileTree

variable {t : FileTree} {d l : Location} {purpose : Purpose}

/-- Where no links are below the output directory, the path of a module leads to a place below
it. -/
theorem eq_append_of_locate_output (ht : t.WellFormed) {r : Resolved}
    (hparts : r.outputParts = .ok parts) (houtput : t.locate .target output = .ok d)
    (hd : t.entryAt? d = some .directory)
    (hlinks : ∀ m target, d <+: m → t.entryAt? m ≠ some (.link target))
    (hl : t.locate purpose (joinAll output parts) = .ok l) : l = d ++ parts := by
  obtain ⟨-, -, heq⟩ := Resolved.outputParts_eq_ok_iff.mp hparts
  have hnames (a : String) (ha : a ∈ parts) : IsName a :=
    (Resolved.isPartName_of_outputParts hparts a ha).1
  obtain ⟨-, way, hway⟩ := locate_eq_ok_iff.mp houtput
  obtain ⟨-, way', hway'⟩ := locate_eq_ok_iff.mp hl
  obtain ⟨m, hm⟩ := (ht.leads_walked hway).followWithin_append hd
  rw [heq, Path.steps_joinAll (by simp) (heq ▸ hnames), ← heq] at hway'
  have hplain (a : String) (ha : a ∈ parts) := (hnames a ha).plain
  have hfollow := hm purpose parts (by simp [heq]) fun _ h => (hplain "" (by simp [h])).1 rfl
  obtain ⟨_, hrest⟩ := exists_leads_of_followWithin (hfollow.symm.trans hway'.followWithin_eq)
  exact hrest.eq_append hplain hlinks

end FileTree

end IdlCompiler
