/-
# Where the enums of one schema come from

A route leads from a schema into one that stands in it: to the items of a sequence, the values of a
dictionary or a branch of a union.  `Schema.enumRoutes` lists the routes to the unions that are no
optional values, in the order in which mapping collects the enums for them: a route comes behind the
routes that go on from it.

Main statements: `Schema.mem_enumRoutes_iff` and `Schema.pairwise_enumRoutes`, every such union has
one route in the list, inner ones first; `Target.unions_mapSchema`, mapping collects the enum at
each of the routes; `Target.exists_comesFrom_of_mem_mentions`, where the names in a type come from;
and `Target.unions_mapSchema_one_each`, which puts them together for schemas with plain unions.
-/
import IdlCompiler.Proofs.Mentions
import IdlCompiler.Proofs.UnionNames

namespace IdlCompiler

namespace Schema

/-! ## Routes -/

/-- A step from a schema to one that stands directly in it. -/
inductive Step where
  | items
  | values
  | branch (position : Nat)
deriving DecidableEq, Repr

/-- Steps one after the other, the outermost first. -/
abbrev Route := List Step

/-- The schema behind a step. -/
def inside? : Schema → Step → Option Schema
  | array items, .items => some items
  | map values, .values => some values
  | union branches, .branch i => branches[i]?
  | _, _ => none

/-- The schema at the end of a route. -/
def at? (s : Schema) : Route → Option Schema
  | [] => some s
  | step :: route => (s.inside? step).bind fun inner => inner.at? route

/-- What a step adds to the names of the enums behind it.  Steps into an optional value add
nothing. -/
def stepWord (s : Schema) : Step → String
  | .items => "Item"
  | .values => "Value"
  | .branch i =>
    if s.optionalInner?.isSome then "" else ((s.inside? (.branch i)).map branchWord).getD ""

/-- What a route adds to the name of the enum at its end. -/
def ending (s : Schema) : Route → String
  | [] => ""
  | step :: route => s.stepWord step ++ ((s.inside? step).map (ending · route)).getD ""

mutual

/-- The routes to the unions that need enums, those that go on from a route before it. -/
def enumRoutes : Schema → List Route
  | primitive _ | named _ => []
  | array items => (enumRoutes items).map (.items :: ·)
  | map values => (enumRoutes values).map (.values :: ·)
  | union branches =>
    enumRoutesOfAll 0 branches ++ if (union branches).optionalInner?.isSome then [] else [[]]
termination_by structural s => s

/-- The routes through branches from position `i` on. -/
def enumRoutesOfAll (i : Nat) : List Schema → List Route
  | [] => []
  | b :: branches => (enumRoutes b).map (.branch i :: ·) ++ enumRoutesOfAll (i + 1) branches
termination_by structural branches => branches

end

theorem enumRoutesOfAll_eq_flatMap (i : Nat) (branches : List Schema) :
    enumRoutesOfAll i branches =
      (branches.zipIdx i).flatMap fun (b, j) => b.enumRoutes.map (.branch j :: ·) := by
  induction branches generalizing i with
  | nil => rfl
  | cons b branches ih => simp [enumRoutesOfAll, ih]

theorem enumRoutes_of_optionalInner?_eq_none {branches : List Schema}
    (h : (union branches).optionalInner? = none) :
    (union branches).enumRoutes =
      (branches.zipIdx.flatMap fun (b, i) => b.enumRoutes.map (.branch i :: ·)) ++ [[]] := by
  simp [enumRoutes, h, enumRoutesOfAll_eq_flatMap]

/-- The routes of an optional value go to the schema inside. -/
theorem enumRoutes_of_optionalInner? {s inner : Schema} (h : s.optionalInner? = some inner) :
    ∃ i, s.inside? (.branch i) = some inner ∧
      s.enumRoutes = inner.enumRoutes.map (.branch i :: ·) := by
  obtain ⟨-, rfl | rfl⟩ := optionalInner?_eq_some_iff.1 h
  · exact ⟨1, rfl, by simp [enumRoutes, enumRoutesOfAll, h]⟩
  · exact ⟨0, rfl, by simp [enumRoutes, enumRoutesOfAll, h]⟩

/-- **Every union that needs an enum has a route in the list**, and nothing else has. -/
theorem mem_enumRoutes_iff {s : Schema} {route : Route} :
    route ∈ s.enumRoutes ↔ ∃ u, s.at? route = some u ∧ u.NeedsEnum := by
  induction s using Schema.induction generalizing route with
  | primitive | named =>
    cases route <;> simp [enumRoutes, at?, inside?, NeedsEnum, isUnion]
  | array items ih =>
    cases route with
    | nil => simp [enumRoutes, at?, NeedsEnum, isUnion]
    | cons step route => cases step <;> simp [enumRoutes, at?, inside?, ih]
  | map values ih =>
    cases route with
    | nil => simp [enumRoutes, at?, NeedsEnum, isUnion]
    | cons step route => cases step <;> simp [enumRoutes, at?, inside?, ih]
  | union branches ih =>
    rw [enumRoutes, enumRoutesOfAll_eq_flatMap, List.mem_append]
    cases route with
    | nil =>
      cases h : (union branches).optionalInner? <;> simp [at?, NeedsEnum, isUnion, h]
    | cons step route =>
      have hroot : step :: route ∉
          (if (union branches).optionalInner?.isSome then [] else [[]] : List Route) := by
        split <;> simp
      simp only [hroot, or_false, List.mem_flatMap, Prod.exists, List.mem_zipIdx_iff_getElem?,
        List.mem_map]
      constructor
      · rintro ⟨b, i, hb, route, hroute, heq⟩
        obtain ⟨rfl, rfl⟩ := List.cons.inj heq
        simpa [at?, inside?, hb] using (ih b (List.mem_of_getElem? hb)).1 hroute
      · rintro ⟨u, hu, hneeds⟩
        obtain ⟨b, hb, hinner⟩ := Option.bind_eq_some_iff.1 hu
        cases step with
        | branch i =>
          exact ⟨b, i, hb, route, (ih b (List.mem_of_getElem? hb)).2 ⟨u, hinner, hneeds⟩, rfl⟩
        | items | values => cases hb

theorem pairwise_map_cons {step : Step} {routes : List Route}
    (h : routes.Pairwise fun earlier later => ¬ earlier <+: later) :
    (routes.map (step :: ·)).Pairwise fun earlier later => ¬ earlier <+: later :=
  List.pairwise_map.2 (h.imp fun hnot hprefix => hnot (List.cons_prefix_cons.1 hprefix).2)

/-- **A route stands in the list behind the routes that go on from it**, and only once. -/
theorem pairwise_enumRoutes (s : Schema) :
    s.enumRoutes.Pairwise fun earlier later => ¬ earlier <+: later := by
  induction s using Schema.induction with
  | primitive | named => simp [enumRoutes]
  | array items ih | map values ih =>
    rw [enumRoutes]
    exact pairwise_map_cons ih
  | union branches ih =>
    rw [enumRoutes, enumRoutesOfAll_eq_flatMap]
    refine List.pairwise_append.2 ⟨List.pairwise_flatMap.2 ⟨?_, ?_⟩, ?_, ?_⟩
    · rintro ⟨b, i⟩ hb
      exact pairwise_map_cons (ih b (List.mem_of_getElem? (List.mem_zipIdx_iff_getElem?.1 hb)))
    · -- the first steps into two branches differ
      have hpositions : (branches.zipIdx.map Prod.snd).Nodup := by
        rw [List.zipIdx_map_snd]
        exact List.nodup_range'
      refine (List.pairwise_map.1 hpositions).imp ?_
      rintro ⟨b, i⟩ ⟨c, j⟩ hne earlier hearlier later hlater hprefix
      obtain ⟨_, -, rfl⟩ := List.mem_map.1 hearlier
      obtain ⟨_, -, rfl⟩ := List.mem_map.1 hlater
      exact hne (Step.branch.inj (List.cons_prefix_cons.1 hprefix).1)
    · split <;> simp
    · intro earlier hearlier later hlater hprefix
      obtain ⟨⟨b, i⟩, -, hearlier⟩ := List.mem_flatMap.1 hearlier
      obtain ⟨_, -, rfl⟩ := List.mem_map.1 hearlier
      obtain rfl : later = [] := by
        split at hlater
        · cases hlater
        · exact List.mem_singleton.1 hlater
      exact absurd (List.prefix_nil.1 hprefix) (List.cons_ne_nil _ _)

/-- The branches of a union. -/
def branchList : Schema → List Schema
  | union branches => branches
  | _ => []

end Schema

namespace Target

variable {r : Resolved} {hint : String} {s inner : Schema} {route : Schema.Route}

/-! ## The enums at routes -/

/-- The enum for the union at the end of a route: it is named by the hint and what the route adds to
it, and has a variant for each branch. -/
def enumAt (r : Resolved) (hint : String) (s : Schema) (route : Schema.Route) : UnionDef :=
  let name := hint ++ s.ending route
  ⟨name, (((s.at? route).map Schema.branchList).getD []).map (variantOf r name)⟩

/-- The enum behind a step is an enum of the schema behind it, under a longer hint. -/
theorem enumAt_cons {step : Schema.Step} (h : s.inside? step = some inner) :
    enumAt r hint s (step :: route) = enumAt r (hint ++ s.stepWord step) inner route := by
  simp [enumAt, Schema.ending, Schema.at?, h, String.append_assoc]

/-- What a step adds to the names of the enums in a branch is the name of its variant. -/
theorem stepWord_branch {branches : List Schema} (h : (Schema.union branches).optionalInner? = none)
    {b : Schema} {i : Nat} (hb : branches[i]? = some b) (hroute : route ∈ b.enumRoutes) :
    (Schema.union branches).stepWord (.branch i) = branchName r b := by
  cases b <;> simp_all [Schema.stepWord, Schema.inside?, Schema.branchWord, branchName,
    Schema.enumRoutes]

/-- The enums at the routes that go on from a step. -/
theorem map_enumAt_cons {step : Schema.Step} (h : s.inside? step = some inner)
    (routes : List Schema.Route) :
    (routes.map (step :: ·)).map (enumAt r hint s) =
      routes.map (enumAt r (hint ++ s.stepWord step) inner) := by
  rw [List.map_map]
  exact List.map_congr_left fun route _ => enumAt_cons h

/-- **Mapping collects the enum at each of the routes**, in their order. -/
theorem unions_mapSchema (r : Resolved) (hint : String) (s : Schema) :
    (mapSchema r hint s).unions = s.enumRoutes.map (enumAt r hint s) := by
  induction s using Schema.induction generalizing hint with
  | primitive | named => simp [mapSchema, Schema.enumRoutes]
  | array items ih =>
    rw [mapSchema, Mapped.wrap, ih, Schema.enumRoutes, map_enumAt_cons rfl]
    rfl
  | map values ih =>
    rw [mapSchema, Mapped.wrap, ih, Schema.enumRoutes, map_enumAt_cons rfl]
    rfl
  | union branches ih =>
    cases hinner : (Schema.union branches).optionalInner? with
    | some inner =>
      -- an optional value passes the hint on, and its other branch needs no enum
      rw [mapSchema_of_optionalInner? hinner, Mapped.wrap,
        ih inner (Schema.mem_of_optionalInner? hinner)]
      obtain ⟨i, hinside, hroutes⟩ := Schema.enumRoutes_of_optionalInner? hinner
      rw [hroutes, map_enumAt_cons hinside]
      simp [Schema.stepWord, hinner]
    | none =>
      have hbranches : (branches.flatMap fun b => (mapSchema r (hint ++ branchName r b) b).unions) =
          branches.zipIdx.flatMap fun x =>
            (x.1.enumRoutes.map (.branch x.2 :: ·)).map (enumAt r hint (.union branches)) := by
        conv_lhs => rw [← List.zipIdx_map_fst 0 branches, List.flatMap_map]
        refine List.flatMap_congr fun ⟨b, i⟩ hmem => ?_
        have hb : branches[i]? = some b := List.mem_zipIdx_iff_getElem?.1 hmem
        have hinside : (Schema.union branches).inside? (.branch i) = some b := hb
        rw [ih b (List.mem_of_getElem? hb), map_enumAt_cons hinside]
        exact List.map_congr_left fun route hroute => by rw [stepWord_branch hinner hb hroute]
      rw [mapSchema_of_optionalInner?_eq_none hinner,
        Schema.enumRoutes_of_optionalInner?_eq_none hinner, List.map_append, List.map_flatMap,
        hbranches]
      simp [enumAt, Schema.ending, Schema.at?, Schema.branchList]

/-! ## Names in payloads -/

/-- Where a name in the type of a schema comes from: the reference or the union at the end of a
route. -/
inductive ComesFrom (r : Resolved) (hint : String) (s : Schema) : Schema.Route → String → Prop
  | reference {route : Schema.Route} {reference : String}
    (named : s.at? route = some (.named reference)) :
    ComesFrom r hint s route (referenceName r reference)
  | union {route : Schema.Route} (mem : route ∈ s.enumRoutes) :
    ComesFrom r hint s route (hint ++ s.ending route)

theorem ComesFrom.cons {step : Schema.Step} (hinside : s.inside? step = some inner) {name : String}
    (h : ComesFrom r (hint ++ s.stepWord step) inner route name) :
    ComesFrom r hint s (step :: route) name := by
  have hat : s.at? (step :: route) = inner.at? route := by simp [Schema.at?, hinside]
  cases h with
  | reference named => exact .reference (hat.trans named)
  | union mem =>
    have hname : hint ++ s.stepWord step ++ inner.ending route =
        hint ++ s.ending (step :: route) := by
      simp [Schema.ending, hinside, String.append_assoc]
    rw [hname]
    exact .union (Schema.mem_enumRoutes_iff.2 (hat ▸ Schema.mem_enumRoutes_iff.1 mem))

/-- A branch is mapped under the name of its variant. -/
theorem ComesFrom.branch {branches : List Schema}
    (hinner : (Schema.union branches).optionalInner? = none) {b : Schema} {i : Nat}
    (hb : branches[i]? = some b) {name : String}
    (h : ComesFrom r (hint ++ branchName r b) b route name) :
    ComesFrom r hint (.union branches) (.branch i :: route) name := by
  have hinside : (Schema.union branches).inside? (.branch i) = some b := hb
  refine .cons hinside ?_
  cases h with
  | reference named => exact .reference named
  | union mem =>
    rw [← stepWord_branch hinner hb mem]
    exact .union mem

theorem ComesFrom.append {u : Schema} (hat : s.at? route = some u) {behind : Schema.Route}
    {name : String} (h : ComesFrom r (hint ++ s.ending route) u behind name) :
    ComesFrom r hint s (route ++ behind) name := by
  induction route generalizing s hint with
  | nil =>
    obtain rfl := Option.some.inj hat
    simpa [Schema.ending] using h
  | cons step route ih =>
    obtain ⟨inner, hinside, hinner⟩ := Option.bind_eq_some_iff.1 hat
    refine .cons hinside (ih hinner ?_)
    simpa [Schema.ending, hinside, String.append_assoc] using h

/-- **Where the names in a type come from.** -/
theorem exists_comesFrom_of_mem_mentions {name : String}
    (h : name ∈ (mapSchema r hint s).type.mentions) : ∃ route, ComesFrom r hint s route name := by
  induction s using Schema.induction generalizing hint with
  | primitive type => cases type <;> simp [mapSchema, primitiveType, TypeExpr.mentions] at h
  | named reference =>
    obtain rfl : name = referenceName r reference := by
      simpa [mapSchema, TypeExpr.mentions] using h
    exact ⟨[], .reference rfl⟩
  | array items ih =>
    rw [mapSchema] at h
    obtain ⟨route, hroute⟩ := ih h
    exact ⟨.items :: route, .cons rfl hroute⟩
  | map values ih =>
    rw [mapSchema] at h
    obtain ⟨route, hroute⟩ := ih h
    exact ⟨.values :: route, .cons rfl hroute⟩
  | union branches ih =>
    cases hinner : (Schema.union branches).optionalInner? with
    | some inner =>
      rw [mapSchema_of_optionalInner? hinner] at h
      obtain ⟨i, hinside, -⟩ := Schema.enumRoutes_of_optionalInner? hinner
      obtain ⟨route, hroute⟩ := ih inner (Schema.mem_of_optionalInner? hinner) h
      refine ⟨.branch i :: route, .cons hinside ?_⟩
      simpa [Schema.stepWord, hinner] using hroute
    | none =>
      rw [mapSchema_of_optionalInner?_eq_none hinner] at h
      obtain rfl : name = hint := List.mem_singleton.1 h
      have hroot : [] ∈ (Schema.union branches).enumRoutes :=
        Schema.mem_enumRoutes_iff.2 ⟨_, rfl, rfl, hinner⟩
      have hcomes : ComesFrom r name (.union branches) [] (name ++ "") := .union hroot
      exact ⟨[], by simpa using hcomes⟩

/-- The data of a variant mention only names that come from inside the union. -/
theorem exists_comesFrom_of_mem_payload (hroute : route ∈ s.enumRoutes) {v : Variant}
    (hv : v ∈ (enumAt r hint s route).variants) {type : TypeExpr} (htype : type ∈ v.payload)
    {name : String} (hname : name ∈ type.mentions) :
    ∃ step behind, ComesFrom r hint s (route ++ step :: behind) name := by
  obtain ⟨u, hu, hunion, hinner⟩ := Schema.mem_enumRoutes_iff.1 hroute
  cases u with
  | union branches =>
    obtain ⟨b, hb, rfl⟩ : ∃ b ∈ branches, variantOf r (hint ++ s.ending route) b = v := by
      simpa [enumAt, hu, Schema.branchList] using hv
    obtain ⟨i, hi⟩ := List.mem_iff_getElem?.1 hb
    by_cases hnull : b.isNull
    · simp [variantOf, hnull] at htype
    · obtain rfl : (mapSchema r (hint ++ s.ending route ++ branchName r b) b).type = type := by
        simpa [variantOf, hnull] using htype
      obtain ⟨behind, hbehind⟩ := exists_comesFrom_of_mem_mentions hname
      exact ⟨.branch i, behind, .append hu (.branch hinner hi hbehind)⟩
  | _ => cases hunion

theorem references_subset_of_inside? {step : Schema.Step} (h : s.inside? step = some inner) :
    inner.references ⊆ s.references := by
  cases s <;> cases step <;> first | cases h | skip
  · exact List.Subset.refl _
  · exact List.Subset.refl _
  · exact Schema.references_subset_of_mem (List.mem_of_getElem? h)

theorem mem_references_of_at? {reference : String} (h : s.at? route = some (.named reference)) :
    reference ∈ s.references := by
  induction route generalizing s with
  | nil =>
    obtain rfl := Option.some.inj h
    simp [Schema.references]
  | cons step route ih =>
    obtain ⟨inner, hinside, hinner⟩ := Option.bind_eq_some_iff.1 h
    exact references_subset_of_inside? hinside (ih hinner)

/-- The data of the variants mention types of the protocol and enums that were collected before. -/
theorem mem_before_of_mem_payload {before after : List UnionDef} {u : UnionDef}
    (hsplit : (mapSchema r hint s).unions = before ++ u :: after) {v : Variant}
    (hv : v ∈ u.variants) {type : TypeExpr} (htype : type ∈ v.payload) {name : String}
    (hname : name ∈ type.mentions) :
    (∃ reference ∈ s.references, referenceName r reference = name) ∨
      ∃ d ∈ before, d.name = name := by
  have horder := s.pairwise_enumRoutes
  rw [unions_mapSchema] at hsplit
  obtain ⟨earlier, rest, hroutes, rfl, hrest⟩ := List.map_eq_append_iff.1 hsplit
  obtain ⟨route, later, rfl, rfl, -⟩ := List.map_eq_cons_iff.1 hrest
  have hroute : route ∈ s.enumRoutes := by simp [hroutes]
  obtain ⟨step, behind, hcomes⟩ := exists_comesFrom_of_mem_payload hroute hv htype hname
  cases hcomes with
  | reference named => exact .inl ⟨_, mem_references_of_at? named, rfl⟩
  | union mem =>
    -- a route that goes on from this one stands neither here nor behind
    have hprefix : route <+: route ++ step :: behind := List.prefix_append _ _
    rw [hroutes] at mem horder
    obtain hearlier | hself | hlater :
        route ++ step :: behind ∈ earlier ∨ route ++ step :: behind = route ∨
          route ++ step :: behind ∈ later := by
      simpa using mem
    · exact .inr ⟨_, List.mem_map_of_mem hearlier, rfl⟩
    · simp at hself
    · obtain ⟨-, hbehind, -⟩ := List.pairwise_append.1 horder
      exact absurd hprefix ((List.pairwise_cons.1 hbehind).1 _ hlater)

/-- The enums stand for the unions at the routes. -/
structure CollectsOneEach (r : Resolved) (hint : String) (s : Schema) (routes : List Schema.Route)
    (unions : List UnionDef) : Prop where
  /-- The routes are those to the unions of the schema that are no optional values. -/
  mem_routes_iff : ∀ route, route ∈ routes ↔ ∃ u, s.at? route = some u ∧ u.NeedsEnum
  /-- Every union is met once. -/
  nodup_routes : routes.Nodup
  /-- There is one enum for each of them, with a variant for each of its branches. -/
  eq_map : unions = routes.map (enumAt r hint s)
  /-- The names of the enums differ. -/
  nodup_names : (unions.map UnionDef.name).Nodup
  /-- The names start with the hint. -/
  hint_append : ∀ u ∈ unions, ∃ ending, u.name = hint ++ ending
  /-- The enum of a union stands behind those of the unions inside. -/
  inner_first : routes.Pairwise fun earlier later => ¬ earlier <+: later
  /-- The names in the data of the variants come from references and unions further inside. -/
  comesFrom : ∀ route ∈ routes, ∀ v ∈ (enumAt r hint s route).variants, ∀ type ∈ v.payload,
    ∀ name ∈ type.mentions, ∃ step behind, ComesFrom r hint s (route ++ step :: behind) name
  /-- So they are names of types of the protocol, or of enums that stand before. -/
  mentions : ∀ before u after, unions = before ++ u :: after → ∀ v ∈ u.variants,
    ∀ type ∈ v.payload, ∀ name ∈ type.mentions,
      (∃ reference ∈ s.references, referenceName r reference = name) ∨
        ∃ d ∈ before, d.name = name

/-- **Mapping collects one enum for each union.**  For a schema in which no union has a union among
its branches, or two sequences or two dictionaries, mapping under any hint collects one enum for
each union that is no optional value; their names differ and start with the hint; and each enum
comes behind those that the data of its variants use. -/
theorem unions_mapSchema_one_each (r : Resolved) (hint : String) {s : Schema}
    (h : s.HasPlainUnions) :
    CollectsOneEach r hint s s.enumRoutes (mapSchema r hint s).unions where
  mem_routes_iff _ := Schema.mem_enumRoutes_iff
  nodup_routes := by
    refine s.pairwise_enumRoutes.imp fun {earlier later} hnot heq => hnot ?_
    exact heq ▸ List.prefix_rfl
  eq_map := unions_mapSchema r hint s
  nodup_names := by
    rw [map_name_mapSchema]
    exact h.nodup_enumEndings.map fun _ _ => (String.append_right_inj hint).1
  hint_append u hu := by
    rw [unions_mapSchema] at hu
    obtain ⟨route, -, rfl⟩ := List.mem_map.1 hu
    exact ⟨s.ending route, rfl⟩
  inner_first := s.pairwise_enumRoutes
  comesFrom _ hroute _ hv _ htype _ hname := exists_comesFrom_of_mem_payload hroute hv htype hname
  mentions _ _ _ hsplit _ hv _ htype _ hname := mem_before_of_mem_payload hsplit hv htype hname

/-- A schema with four unions: one around a sequence and a dictionary with unions of their own, of
which one is an optional value that holds a dictionary with a union in it. -/
def nestedUnions : Schema :=
  .array (.union [.primitive .int,
    .array (.union [.null, .map (.union [.primitive .long, .primitive .string])]),
    .map (.union [.primitive .int, .primitive .string])])

/-- Three of the unions have enums, the inner ones first. -/
theorem nestedUnions_one_each :
    nestedUnions.HasPlainUnions ∧
      ((mapSchema (.ofProtocol (.empty "P" none)) "X" nestedUnions).unions.map UnionDef.name) =
        ["XItemArrayItemValue", "XItemMapValue", "XItem"] ∧
      CollectsOneEach (.ofProtocol (.empty "P" none)) "X" nestedUnions nestedUnions.enumRoutes
        (mapSchema (.ofProtocol (.empty "P" none)) "X" nestedUnions).unions := by
  have hcheck : (Protocol.empty "P" none).checkSchema (.response "m") nestedUnions = .ok () := rfl
  have hplain : nestedUnions.HasPlainUnions :=
    Protocol.hasPlainUnions_of_allowsSchema ((Protocol.checkSchema_eq_ok_iff nestedUnions).1 hcheck)
  exact ⟨hplain, by decide, unions_mapSchema_one_each _ _ hplain⟩

end Target

end IdlCompiler
