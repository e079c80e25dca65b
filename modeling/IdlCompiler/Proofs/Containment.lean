/-
# Which generated types contain themselves

A generated type has a finite size only if it does not contain a value of its own type.
This file compares the definitions of a module that contain each other directly with the
records of the protocol.

A field that refers to a record directly or as an optional value is boxed if the record
leads back, so such fields close no circle.  A union that stands for an enum of its own is
never boxed, so a record that comes back to itself through such a union contains itself.
The relation `Resolved.Embeds` says in terms of the protocol when a field keeps a type
inside its record, and the main statement, `Target.circles_are_embeddings`, that circles of
definitions are circles of this relation.
-/
import IdlCompiler.Proofs.Contents

namespace IdlCompiler

open Relation

/-! ## Records that keep other types inside -/

namespace Resolved

variable (r : Resolved)

/-- A field of the record `a` keeps a value of the type `b` inside: it names the type outside
of arrays and maps, and if it refers to it directly or as an optional value, then the type
does not lead back to the record. -/
inductive Embeds (a b : ResolvedType) : Prop where
  | field {isError : Bool} {fields : List ResolvedField} {f : ResolvedField} {n : String}
      (record : a ∈ r.types) (body : a.body = .record isError fields) (mem : f ∈ fields)
      (reference : n ∈ f.schema.valueReferences) (type : b ∈ r.types)
      (name : Target.referenceName r n = b.targetName)
      (away : f.schema.directReference? = some n → ∀ t, r.getType? n = some t →
        ¬ ReflTransGen r.Leads t.fullName a.fullName)

end Resolved

namespace Target

/-! ## Circles -/

variable {p : Protocol} {name : String}

/-- A record embeds a type through a reference that does not lead back, or through the enum
of one of its fields. -/
theorem embeds_iff (hp : p.WellFormed) {a b : ResolvedType}
    (hb : b ∈ (Resolved.ofProtocol p).types) :
    (Resolved.ofProtocol p).Embeds a b ↔ RefersAway (.ofProtocol p) a b.targetName ∨
      ∃ u, IsEnumOf (.ofProtocol p) a u ∧ b.targetName ∈ (Holder.union u).contents := by
  constructor
  · rintro ⟨ha, hbody, hf, hn, -, hname, haway⟩
    have hallows := hp.allowsSchema_of_mem ha hbody hf
    rcases (Schema.mem_valueReferences_iff (Protocol.isFlat_of_allowsSchema hallows)).1 hn with
      hdirect | ⟨henum, branches, hs, hmem⟩
    · exact .inl ⟨_, _, _, _, ha, hbody, hf, hdirect, hname, haway hdirect⟩
    · rw [hs, Protocol.AllowsSchema] at hallows
      exact .inr ⟨_, ⟨_, _, _, branches, ha, hbody, hf, hs, henum, rfl⟩,
        (mem_contents_union hallows.2.1).2 ⟨_, hmem, hname⟩⟩
  · rintro (⟨_, _, f, n, ha, hbody, hf, hdirect, hname, haway⟩ |
      ⟨u, ⟨_, _, f, branches, ha, hbody, hf, hs, henum, rfl⟩, hmem⟩)
    all_goals
      have hallows := hp.allowsSchema_of_mem ha hbody hf
      have hvalue := fun n =>
        Schema.mem_valueReferences_iff (n := n) (Protocol.isFlat_of_allowsSchema hallows)
    · exact ⟨ha, hbody, hf, (hvalue n).2 (.inl hdirect), hb, hname, fun _ => haway⟩
    · rw [hs, Protocol.AllowsSchema] at hallows
      obtain ⟨n, hn, hname⟩ := (mem_contents_union hallows.2.1).1 hmem
      refine ⟨ha, hbody, hf, (hvalue n).2 (.inr ⟨henum, branches, hs, hn⟩), hb, hname,
        fun hdirect => ?_⟩
      -- the schema of an enum is no direct reference
      rw [hs] at hdirect henum
      simp [Schema.directReference?, henum.2] at hdirect

/-- A record that embeds a type contains its definition, perhaps through an enum. -/
theorem contains_of_embeds (hp : p.WellFormed) {a b : ResolvedType}
    (h : (Resolved.ofProtocol p).Embeds a b) {d' : DataDef} {us' : List UnionDef}
    (hd' : dataOf? (.ofProtocol p) b = some (d', us')) :
    ∃ d us, dataOf? (.ofProtocol p) a = some (d, us) ∧
      TransGen (Module.ofResolved (.ofProtocol p)).Contains (.data d) (.data d') := by
  obtain ⟨ha, hbody, -, -, hb, -, -⟩ := id h
  obtain ⟨⟨d, us⟩, hd⟩ : ∃ x, dataOf? (.ofProtocol p) a = some x := by
    rw [dataOf?, hbody]
    exact ⟨_, rfl⟩
  refine ⟨d, us, hd, ?_⟩
  have hin := data_mem_holders_iff.2 ⟨a, ha, us, hd⟩
  have hin' := data_mem_holders_iff.2 ⟨b, hb, us', hd'⟩
  have hname : (Holder.data d').name = b.targetName := name_of_dataOf? hd'
  rcases (embeds_iff hp hb).1 h with haway | ⟨u, hu, hmem⟩
  · exact .single ⟨hin, hin', hname ▸ (mem_contents_data_iff hp ha hd).2 (.inr haway)⟩
  · have hunion := union_mem_holders_iff.2 (mem_unions_of_isEnumOf hu)
    have hfirst := (mem_contents_data_iff hp ha hd).2 (.inl ⟨u, hu, rfl⟩)
    exact .tail (.single ⟨hin, hunion, hfirst⟩) ⟨hunion, hin', hname ▸ hmem⟩

/-- Types that embed each other in a row have definitions that contain each other. -/
theorem contains_of_transGen_embeds (hp : p.WellFormed) {a b : ResolvedType}
    (h : TransGen (Resolved.ofProtocol p).Embeds a b) {d' : DataDef} {us' : List UnionDef}
    (hd' : dataOf? (.ofProtocol p) b = some (d', us')) :
    ∃ d us, dataOf? (.ofProtocol p) a = some (d, us) ∧
      TransGen (Module.ofResolved (.ofProtocol p)).Contains (.data d) (.data d') := by
  induction h using TransGen.head_induction_on with
  | single h => exact contains_of_embeds hp h hd'
  | head h _ ih =>
    obtain ⟨d, us, hd, hway⟩ := ih
    obtain ⟨d₀, us₀, hd₀, hfirst⟩ := contains_of_embeds hp h hd
    exact ⟨d₀, us₀, hd₀, hfirst.trans hway⟩

/-- Where a way through the definitions from the record `a` may have come: to a definition of
a type that is embedded in the record in some steps, or to the enum of such a type. -/
def Lands (r : Resolved) (a : ResolvedType) : Holder → Prop
  | .data d => ∀ b ∈ r.types, ∀ us, dataOf? r b = some (d, us) → TransGen r.Embeds a b
  | .union u => ∃ b, ReflTransGen r.Embeds a b ∧ IsEnumOf r b u

/-- A struct of a type that `a` leads to only contains definitions that `a` leads to. -/
theorem lands_of_data_contains (hp : p.WellFormed) (hi : p.IsIndexed)
    (hown : (Module.ofResolved (.ofProtocol p)).HasOwnUnionNames (.ofProtocol p))
    {a b : ResolvedType} (hb : b ∈ (Resolved.ofProtocol p).types) {d : DataDef}
    {us : List UnionDef} (hd : dataOf? (.ofProtocol p) b = some (d, us))
    (hway : ReflTransGen (Resolved.ofProtocol p).Embeds a b) {x : Holder}
    (hx : (Module.ofResolved (.ofProtocol p)).Contains (.data d) x) :
    Lands (.ofProtocol p) a x := by
  obtain ⟨-, hin, hname⟩ := hx
  rw [mem_contents_data_iff hp hb hd] at hname
  cases x with
  | data d' =>
    intro c hc us' hd'
    have htarget : (Holder.data d').name = c.targetName := name_of_dataOf? hd'
    rw [htarget] at hname
    -- no enum has the name of a type
    rcases hname with ⟨u, hu, huname⟩ | haway
    · exact absurd huname (hown.2 u (mem_unions_of_isEnumOf hu) c hc)
    · exact .tail' hway ((embeds_iff hp hc).2 (.inl haway))
  | union u =>
    have hu := union_mem_holders_iff.1 hin
    rcases hname with ⟨v, hv, hvname⟩ | ⟨_, _, f, n, -, hbody, hf, hdirect, hname, -⟩
    · have hin' := mem_unions_of_isEnumOf hv
      obtain rfl := List.inj_on_of_nodup_map hown.1 hin' hu hvname
      exact ⟨b, hway, hv⟩
    · have hallows := hp.allowsSchema_of_mem hb hbody hf
      obtain ⟨t, ht, htarget⟩ :=
        hp.exists_referenceName hi (Protocol.hasType_of_directReference? hallows hdirect)
      exact absurd (hname.symm.trans htarget) (hown.2 u hu t ht)

/-- The enum of a type that `a` leads to only contains definitions that `a` leads to. -/
theorem lands_of_union_contains (hp : p.WellFormed) (hi : p.IsIndexed)
    (hown : (Module.ofResolved (.ofProtocol p)).HasOwnUnionNames (.ofProtocol p))
    {a b : ResolvedType} {u : UnionDef} (hu : IsEnumOf (.ofProtocol p) b u)
    (hway : ReflTransGen (Resolved.ofProtocol p).Embeds a b) {x : Holder}
    (hx : (Module.ofResolved (.ofProtocol p)).Contains (.union u) x) :
    Lands (.ofProtocol p) a x := by
  obtain ⟨-, hin, hname⟩ := hx
  cases x with
  | data d' =>
    intro c hc us' hd'
    have htarget : (Holder.data d').name = c.targetName := name_of_dataOf? hd'
    exact .tail' hway ((embeds_iff hp hc).2 (.inr ⟨u, hu, htarget ▸ hname⟩))
  | union v =>
    obtain ⟨t, ht, htarget⟩ :=
      exists_targetName_of_mem_unions hp hi (mem_unions_of_isEnumOf hu) hname
    exact absurd htarget.symm (hown.2 v (union_mem_holders_iff.1 hin) t ht)

/-- A way through the definitions that starts at the struct of a record only comes to
definitions of what the record embeds. -/
theorem lands_of_transGen_contains (hp : p.WellFormed) (hi : p.IsIndexed)
    (hown : (Module.ofResolved (.ofProtocol p)).HasOwnUnionNames (.ofProtocol p))
    {a : ResolvedType} (ha : a ∈ (Resolved.ofProtocol p).types) {d : DataDef}
    {us : List UnionDef} (hd : dataOf? (.ofProtocol p) a = some (d, us)) {x : Holder}
    (h : TransGen (Module.ofResolved (.ofProtocol p)).Contains (.data d) x) :
    Lands (.ofProtocol p) a x := by
  induction h with
  | single h => exact lands_of_data_contains hp hi hown ha hd .refl h
  | @tail y z _ h ih =>
    cases y with
    | data d' =>
      obtain ⟨b, hb, us', hd'⟩ := data_mem_holders_iff.1 h.1
      exact lands_of_data_contains hp hi hown hb hd' (ih b hb us' hd').to_reflTransGen h
    | union u =>
      obtain ⟨b, hway, hu⟩ := ih
      exact lands_of_union_contains hp hi hown hu hway h

/-- On every circle of definitions there is a struct, as enums only contain structs. -/
theorem exists_data_on_circle (hp : p.WellFormed) (hi : p.IsIndexed)
    (hown : (Module.ofResolved (.ofProtocol p)).HasOwnUnionNames (.ofProtocol p)) {x : Holder}
    (h : TransGen (Module.ofResolved (.ofProtocol p)).Contains x x) :
    ∃ d, TransGen (Module.ofResolved (.ofProtocol p)).Contains (.data d) (.data d) := by
  cases x with
  | data d => exact ⟨d, h⟩
  | union u =>
    obtain ⟨y, hfirst, hback⟩ := TransGen.head'_iff.1 h
    obtain ⟨hu, hy, hname⟩ := id hfirst
    cases y with
    | data d => exact ⟨d, .tail' hback hfirst⟩
    | union v =>
      obtain ⟨t, ht, htarget⟩ :=
        exists_targetName_of_mem_unions hp hi (union_mem_holders_iff.1 hu) hname
      exact absurd htarget.symm (hown.2 v (union_mem_holders_iff.1 hy) t ht)

/-- A record that refers to a type which does not lead back does lead to this type, if the
types have names of their own. -/
theorem leads_of_refersAway (hp : p.WellFormed) (hi : p.IsIndexed)
    (hnames : ((Resolved.ofProtocol p).types.map ResolvedType.targetName).Nodup)
    {a b : ResolvedType} (hb : b ∈ (Resolved.ofProtocol p).types)
    (h : RefersAway (.ofProtocol p) a b.targetName) :
    (Resolved.ofProtocol p).Leads a.fullName b.fullName ∧
      ¬ ReflTransGen (Resolved.ofProtocol p).Leads b.fullName a.fullName := by
  obtain ⟨_, fields, f, n, ha, hbody, hf, hdirect, hname, haway⟩ := h
  have hallows := hp.allowsSchema_of_mem ha hbody hf
  obtain ⟨t, ht⟩ := Option.isSome_iff_exists.1
    (hp.isSome_getType? hi (Protocol.hasType_of_directReference? hallows hdirect))
  have htarget : t.targetName = b.targetName := by
    rw [← hname]
    simp [referenceName, Resolved.targetName?, ht]
  obtain rfl := List.inj_on_of_nodup_map hnames (Resolved.getType?_mem ht) hb htarget
  refine ⟨?_, haway t ht⟩
  have hnamed : (Resolved.ofProtocol p).named? a.fullName = some a := by
    obtain ⟨u, hu, rfl⟩ := List.mem_map.1 ha
    exact hp.named?_fullNameOf hu
  rw [Resolved.Leads, Resolved.successors, hnamed, Option.map_some, hbody]
  exact List.mem_filterMap.2 ⟨f, hf, by simp [hdirect, ht]⟩

/-- If the types have names of their own, then a type only embeds itself through the enum of
a union: every circle of other references has a box. -/
theorem exists_needsEnum_of_embeds (hp : p.WellFormed) (hi : p.IsIndexed)
    (hnames : ((Resolved.ofProtocol p).types.map ResolvedType.targetName).Nodup)
    {t : ResolvedType} (h : TransGen (Resolved.ofProtocol p).Embeds t t) :
    ∃ a u, IsEnumOf (.ofProtocol p) a u := by
  by_contra hnone
  push Not at hnone
  -- without an enum, types embed what they lead to and what does not lead back
  have step : ∀ a b, (Resolved.ofProtocol p).Embeds a b →
      (Resolved.ofProtocol p).Leads a.fullName b.fullName ∧
        ¬ ReflTransGen (Resolved.ofProtocol p).Leads b.fullName a.fullName := by
    intro a b hab
    obtain ⟨-, -, -, -, hb, -, -⟩ := id hab
    rcases (embeds_iff hp hb).1 hab with haway | ⟨u, hu, -⟩
    · exact leads_of_refersAway hp hi hnames hb haway
    · exact absurd hu (hnone a u)
  obtain ⟨u, hfirst, hback⟩ := TransGen.head'_iff.1 h
  exact (step t u hfirst).2 (hback.lift _ fun a b hab => (step a b hab).1)

/-- **Definitions contain themselves exactly if types embed themselves.**  In the module of a
well-formed protocol, a type that embeds itself in some steps makes a circle of definitions
that contain each other directly.  If the enums of unions have names of their own, then
there are no other circles; and if the types have, too, then a circle needs a union. -/
theorem circles_are_embeddings (hvalid : p.validate = .ok ()) (hindexed : p.IsIndexed) :
    ((∃ t, TransGen (Resolved.ofProtocol p).Embeds t t) →
        ∃ x, TransGen (Module.ofResolved (.ofProtocol p)).Contains x x) ∧
      ((Module.ofResolved (.ofProtocol p)).HasOwnUnionNames (.ofProtocol p) →
        (∃ x, TransGen (Module.ofResolved (.ofProtocol p)).Contains x x) →
          (∃ t, TransGen (Resolved.ofProtocol p).Embeds t t) ∧
            (((Resolved.ofProtocol p).types.map ResolvedType.targetName).Nodup →
              ∃ a u, IsEnumOf (.ofProtocol p) a u)) := by
  have hp := Protocol.validate_eq_ok_iff.1 hvalid
  constructor
  · rintro ⟨t, hcircle⟩
    obtain ⟨u, hfirst, -⟩ := TransGen.head'_iff.1 hcircle
    obtain ⟨-, hbody, -, -, -, -, -⟩ := hfirst
    obtain ⟨⟨d, us⟩, hd⟩ : ∃ x, dataOf? (.ofProtocol p) t = some x := by
      rw [dataOf?, hbody]
      exact ⟨_, rfl⟩
    obtain ⟨d', us', hd', hway⟩ := contains_of_transGen_embeds hp hcircle hd
    obtain ⟨rfl, -⟩ := Prod.mk.inj (Option.some.inj (hd.symm.trans hd'))
    exact ⟨.data d, hway⟩
  · rintro hown ⟨x, hcircle⟩
    obtain ⟨d, hcircle⟩ := exists_data_on_circle hp hindexed hown hcircle
    obtain ⟨y, hfirst, -⟩ := TransGen.head'_iff.1 hcircle
    obtain ⟨t, ht, us, hd⟩ := data_mem_holders_iff.1 hfirst.1
    have hembeds := lands_of_transGen_contains hp hindexed hown ht hd hcircle t ht us hd
    exact ⟨⟨t, hembeds⟩, fun hnames => exists_needsEnum_of_embeds hp hindexed hnames hembeds⟩

/-- A record whose only field holds the record itself or a number. -/
def chain : Protocol :=
  (Protocol.empty "Chains" (some "org")).addTypes [{
    name := "Node"
    body := .record false
      [{ name := "next", schema := .union [.named "Node", .primitive .int] }] }]

/-- A record whose only field is the record itself as an optional value. -/
def optionalChain : Protocol :=
  (Protocol.empty "Chains" (some "org")).addTypes [{
    name := "Node"
    body := .record false
      [{ name := "next", schema := .union [.null, .named "Node"] }] }]

/-- The module of the first chain has a circle, although its enum has a name of its own; the
module of the second one has none. -/
theorem chain_has_circle :
    chain.validate = .ok () ∧
      (Module.ofResolved (.ofProtocol chain)).HasOwnUnionNames (.ofProtocol chain) ∧
      (∃ x, TransGen (Module.ofResolved (.ofProtocol chain)).Contains x x) ∧
      ¬ ∃ x, TransGen (Module.ofResolved (.ofProtocol optionalChain)).Contains x x := by
  have hown : (Module.ofResolved (.ofProtocol chain)).HasOwnUnionNames (.ofProtocol chain) :=
    ⟨by decide +kernel, by decide +kernel⟩
  have hembeds : ∀ t ∈ (Resolved.ofProtocol chain).types,
      (Resolved.ofProtocol chain).Embeds t t := by
    intro t ht
    obtain rfl := List.mem_singleton.1 ht
    exact .field ht rfl (List.mem_singleton_self _) (List.mem_singleton_self _) ht rfl nofun
  refine ⟨rfl, hown, (circles_are_embeddings (p := chain) rfl rfl).1
    ⟨_, .single (hembeds _ (List.mem_singleton_self _))⟩, ?_⟩
  · intro hcircle
    obtain ⟨-, hunion⟩ := (circles_are_embeddings (p := optionalChain) rfl rfl).2
      ⟨by decide +kernel, by decide +kernel⟩ hcircle
    obtain ⟨a, u, _, fields, f, branches, ha, hbody, hf, hs, ⟨-, henum⟩, -⟩ :=
      hunion (by decide +kernel)
    obtain rfl := List.mem_singleton.1 ha
    obtain ⟨-, rfl⟩ := ResolvedBody.record.inj hbody
    obtain rfl := List.mem_singleton.1 hf
    cases henum

end Target

end IdlCompiler
