import AtomrOntology.Store.Paths

/-!
# Is there a row for each path?

A step of one hop shares its visited set among all edges that leave a node: of the edges to
one node only the first is followed, and none back to the node itself. A plan without repeats
therefore has a row for each path exactly where no path takes a loop or one of two edges
with the same ends.
-/

namespace AtomrOntology

variable {o : Ontology} {step : TraversalStep} {steps : List TraversalStep} {row : MatchRow}
  {x y : NodeId}

/-- An edge as it is stored, with its key. -/
abbrev StoredEdge := EdgeId × Edge

instance : DecidablePred (IsTarget o step) := fun y =>
  decidable_of_iff ((o.nodes[y]?.any fun node => matchNode node step.target) = true) (by
    simp [IsTarget, Option.any_eq_true])

/-- A stored matching edge from a node to a target of a step. -/
structure Takes (o : Ontology) (step : TraversalStep) (x : NodeId) (e : StoredEdge) : Prop where
  stored : e ∈ o.edges.toList
  matched : matchEdge e.2 step.edge
  near : step.near e.2 = x
  target : IsTarget o step (step.far e.2)

/-- Edges that lead from a node through some steps, one edge for each step. -/
def IsTrail (o : Ontology) : List TraversalStep → NodeId → List StoredEdge → Prop
  | [], _, [] => True
  | step :: steps, x, e :: es => Takes o step x e ∧ IsTrail o steps (step.far e.2) es
  | _, _, _ => False

/-- The row at the end of a trail. -/
def trailRow : List TraversalStep → MatchRow → List StoredEdge → MatchRow
  | step :: steps, row, e :: es => trailRow steps (step.bind row (some e.2.id) (step.far e.2)) es
  | _, row, _ => row

/-- A path of a plan: a stored node and an edge for each step. -/
abbrev PlanPath := (NodeId × Node) × List StoredEdge

/-- The paths of a plan without repeats. -/
def IsPlanPath (o : Ontology) (plan : TraversalPlan) (p : PlanPath) : Prop :=
  p.1 ∈ o.nodes.toList ∧ matchNode p.1.2 plan.seed ∧ IsTrail o plan.steps p.1.2.id p.2

/-- The row of a path. -/
def TraversalPlan.rowOf (plan : TraversalPlan) (p : PlanPath) : MatchRow :=
  trailRow plan.steps (plan.seed.seedRow p.1.2.id) p.2

/-- The rows of a plan are those of its paths, one for each. -/
def OneRowEach (o : Ontology) (plan : TraversalPlan) : Prop :=
  ∃ paths : List PlanPath, paths.Nodup ∧ (∀ p, p ∈ paths ↔ IsPlanPath o plan p) ∧
    (traverse o plan).Perm (paths.map plan.rowOf)

/-- Neither a loop nor one of several matching edges with the same ends. -/
def LoneHop (o : Ontology) (step : TraversalStep) (e : StoredEdge) : Prop :=
  step.far e.2 ≠ step.near e.2 ∧ ∀ e' ∈ o.edges.toList, matchEdge e'.2 step.edge →
    step.near e'.2 = step.near e.2 → step.far e'.2 = step.far e.2 → e' = e

/-- Each step is one hop, and the rows are neither ordered nor cut nor projected. -/
structure TraversalPlan.Plain (plan : TraversalPlan) : Prop where
  hops : ∀ step ∈ plan.steps, step.edge.repeat = none
  order : plan.order = []
  skip : plan.skip = 0
  limit : plan.limit = none
  columns : plan.returnColumns = []

/-- The edges that lead to nodes not visited before. -/
def keep (step : TraversalStep) : List StoredEdge → BTreeSet NodeId → List StoredEdge
  | [], _ => []
  | e :: es, visited =>
    if matchEdge e.2 step.edge && !visited.contains (step.far e.2) then
      e :: keep step es (visited.insert (step.far e.2))
    else keep step es visited

/-- An edge to a new node is kept, and its end is visited. -/
theorem keep_take {e : StoredEdge} {es : List StoredEdge} {visited : BTreeSet NodeId}
    (hmatch : matchEdge e.2 step.edge) (h : step.far e.2 ∉ visited) :
    keep step (e :: es) visited = e :: keep step es (visited.insert (step.far e.2)) := by
  have hnew : visited.contains (step.far e.2) = false := by
    rwa [← Bool.not_eq_true, Std.ExtTreeSet.contains_iff_mem]
  rw [keep, if_pos (by simp [hmatch, hnew])]

/-- An edge that does not match, or leads to a visited node, is skipped. -/
theorem keep_skip {e : StoredEdge} {es : List StoredEdge} {visited : BTreeSet NodeId}
    (h : matchEdge e.2 step.edge → step.far e.2 ∈ visited) :
    keep step (e :: es) visited = keep step es visited := by
  rw [keep, if_neg]
  intro hkeep
  rw [Bool.and_eq_true, Bool.not_eq_true', ← Bool.not_eq_true,
    Std.ExtTreeSet.contains_iff_mem] at hkeep
  exact hkeep.2 (h hkeep.1)

/-- Candidates are followed along the edges that are kept. -/
theorem followCandidates_map (row : MatchRow) (es : List StoredEdge)
    (visited : BTreeSet NodeId) : (followCandidates step row (es.map Prod.snd) visited).1 =
      (keep step es visited).map fun e => (row, step.far e.2, some e.2.id) := by
  induction es generalizing visited with
  | nil => rfl
  | cons e es ih =>
    rw [List.map_cons]
    by_cases hskip : matchEdge e.2 step.edge → step.far e.2 ∈ visited
    · rw [followCandidates_skip hskip, keep_skip hskip, ih]
    · obtain ⟨hmatch, hnew⟩ := Classical.not_imp.mp hskip
      rw [followCandidates_take hmatch hnew, keep_take hmatch hnew, ih]
      rfl

/-- What is kept matches and leads to a new node. -/
theorem mem_keep {e : StoredEdge} {es : List StoredEdge} {visited : BTreeSet NodeId}
    (h : e ∈ keep step es visited) :
    e ∈ es ∧ matchEdge e.2 step.edge ∧ step.far e.2 ∉ visited := by
  induction es generalizing visited with
  | nil => cases h
  | cons e' es ih =>
    by_cases hskip : matchEdge e'.2 step.edge → step.far e'.2 ∈ visited
    · rw [keep_skip hskip] at h
      exact ⟨List.mem_cons_of_mem e' (ih h).1, (ih h).2⟩
    · obtain ⟨hmatch, hnew⟩ := Classical.not_imp.mp hskip
      rw [keep_take hmatch hnew] at h
      obtain rfl | h := List.mem_cons.mp h
      · exact ⟨List.mem_cons_self, hmatch, hnew⟩
      · obtain ⟨hmem, hmatch', hnew'⟩ := ih h
        exact ⟨List.mem_cons_of_mem e' hmem, hmatch',
          fun hvisited => hnew' (BTreeSet.mem_insert.mpr (Or.inr hvisited))⟩

/-- No two edges that are followed lead to one node. -/
theorem nodup_keep (es : List StoredEdge) (visited : BTreeSet NodeId) :
    ((keep step es visited).map fun e => step.far e.2).Nodup := by
  induction es generalizing visited with
  | nil => exact List.nodup_nil
  | cons e es ih =>
    by_cases hskip : matchEdge e.2 step.edge → step.far e.2 ∈ visited
    · rw [keep_skip hskip]
      exact ih visited
    · obtain ⟨hmatch, hnew⟩ := Classical.not_imp.mp hskip
      rw [keep_take hmatch hnew]
      refine List.nodup_cons.mpr ⟨fun hmem => ?_, ih _⟩
      obtain ⟨e', he', hfar⟩ := List.mem_map.mp hmem
      exact (mem_keep he').2.2 (BTreeSet.mem_insert.mpr (Or.inl hfar))

/-- Some edge is followed to each node that is not visited. -/
theorem exists_mem_keep {e : StoredEdge} {es : List StoredEdge} {visited : BTreeSet NodeId}
    (he : e ∈ es) (hmatch : matchEdge e.2 step.edge) (hnew : step.far e.2 ∉ visited) :
    ∃ e' ∈ keep step es visited, step.far e'.2 = step.far e.2 := by
  induction es generalizing visited with
  | nil => cases he
  | cons e' es ih =>
    by_cases hskip : matchEdge e'.2 step.edge → step.far e'.2 ∈ visited
    · rw [keep_skip hskip]
      obtain rfl | he := List.mem_cons.mp he
      · exact absurd (hskip hmatch) hnew
      · exact ih he hnew
    · obtain ⟨hmatch', hnew'⟩ := Classical.not_imp.mp hskip
      rw [keep_take hmatch' hnew']
      by_cases hfar : step.far e'.2 = step.far e.2
      · exact ⟨e', List.mem_cons_self, hfar⟩
      · obtain rfl | he := List.mem_cons.mp he
        · exact absurd rfl hfar
        · have hnew'' : step.far e.2 ∉ visited.insert (step.far e'.2) := by
            rw [BTreeSet.mem_insert]
            simp [Ne.symm hfar, hnew]
          obtain ⟨e'', he'', hfar'⟩ := ih he hnew''
          exact ⟨e'', List.mem_cons_of_mem e' he'', hfar'⟩

/-- The edges that a step of one hop follows from a node to its targets. -/
def kept (o : Ontology) (step : TraversalStep) (x : NodeId) : List StoredEdge :=
  (keep step (o.edges.toList.filter fun e => step.near e.2 = x)
    ((∅ : BTreeSet NodeId).insert x)).filter fun e => IsTarget o step (step.far e.2)

/-- A kept edge can be taken and does not come back. -/
theorem takes_of_mem_kept {e : StoredEdge} (h : e ∈ kept o step x) :
    Takes o step x e ∧ step.far e.2 ≠ x := by
  obtain ⟨hkeep, htarget⟩ := List.mem_filter.mp h
  obtain ⟨hmem, hmatch, hnew⟩ := mem_keep hkeep
  obtain ⟨hstored, hnear⟩ := List.mem_filter.mp hmem
  refine ⟨⟨hstored, hmatch, by simpa using hnear, by simpa using htarget⟩, fun hfar => ?_⟩
  exact hnew (BTreeSet.mem_insert.mpr (Or.inl hfar))

/-- No two kept edges have one end. -/
theorem nodup_kept : ((kept o step x).map fun e => step.far e.2).Nodup :=
  (nodup_keep _ _).sublist (List.filter_sublist.map _)

/-- Some edge is kept to every end other than the start. -/
theorem exists_mem_kept {e : StoredEdge} (h : Takes o step x e) (hne : step.far e.2 ≠ x) :
    ∃ e' ∈ kept o step x, step.far e'.2 = step.far e.2 := by
  have hmem : e ∈ o.edges.toList.filter fun e => step.near e.2 = x :=
    List.mem_filter.mpr ⟨h.stored, by simp [h.near]⟩
  have hnew : step.far e.2 ∉ (∅ : BTreeSet NodeId).insert x := by
    rw [BTreeSet.mem_insert]
    simp [hne]
  obtain ⟨e', hkeep, hfar⟩ := exists_mem_keep hmem h.matched hnew
  exact ⟨e', List.mem_filter.mpr ⟨hkeep, by simp [hfar, h.target]⟩, hfar⟩

/-- A step of one hop emits a row for each edge it follows. -/
theorem expandStep_of_one_hop (h : step.edge.repeat = none) (row : MatchRow) (x : NodeId) :
    expandStep o step (row, x) = (kept o step x).map fun e =>
      (step.bind row (some e.2.id) (step.far e.2), step.far e.2) := by
  have hmax : step.range.max.toNat = 1 := by
    rw [TraversalStep.range, h]
    rfl
  have hmin : step.range.min.toNat = 1 := by
    rw [TraversalStep.range, h]
    rfl
  have hcandidates : candidates o step x =
      (o.edges.toList.filter fun e => step.near e.2 = x).map Prod.snd := by
    rw [candidates, BTreeMap.vals, List.filter_map]
    rfl
  have hlayer : (nextLayer o step [(row, x, none)] ((∅ : BTreeSet NodeId).insert x)).1 =
      (keep step (o.edges.toList.filter fun e => step.near e.2 = x)
        ((∅ : BTreeSet NodeId).insert x)).map fun e => (row, step.far e.2, some e.2.id) := by
    rw [nextLayer_cons, hcandidates]
    dsimp only
    rw [followCandidates_map, nextLayer, List.append_nil]
  have hemit : ∀ es : List StoredEdge,
      (es.map fun e => (row, step.far e.2, some e.2.id)).filterMap (emitEntry o step) =
        (es.filter fun e => IsTarget o step (step.far e.2)).map fun e =>
          (step.bind row (some e.2.id) (step.far e.2), step.far e.2) := by
    intro es
    induction es with
    | nil => rfl
    | cons e es ih =>
      by_cases htarget : IsTarget o step (step.far e.2)
      · have hsome : emitEntry o step (row, step.far e.2, some e.2.id) =
            some (step.bind row (some e.2.id) (step.far e.2), step.far e.2) :=
          emitEntry_eq_some.mpr ⟨htarget, rfl⟩
        rw [List.map_cons, List.filterMap_cons_some hsome, ih,
          List.filter_cons_of_pos (by simp [htarget]), List.map_cons]
      · have hnone : emitEntry o step (row, step.far e.2, some e.2.id) = none := by
          rw [Option.eq_none_iff_forall_ne_some]
          intro r hr
          exact htarget (emitEntry_eq_some.mp hr).1
        rw [List.map_cons, List.filterMap_cons_none hnone, ih,
          List.filter_cons_of_neg (by simp [htarget])]
  have hfirst : ¬1 ≤ 0 := by decide
  rw [expandStep, hmax, expandLayers, hmin]
  simp only [hfirst, if_false, List.nil_append, hlayer, List.isEmpty_map]
  by_cases hempty : (keep step (o.edges.toList.filter fun e => step.near e.2 = x)
      ((∅ : BTreeSet NodeId).insert x)).isEmpty
  · rw [if_pos hempty, kept, List.isEmpty_iff.mp hempty]
    rfl
  · rw [if_neg hempty, expandLayers, hmin]
    simp only [Nat.zero_add, le_refl, if_true, hemit]
    rfl

/-- The trails of edges that are followed. -/
def keptTrails (o : Ontology) : List TraversalStep → NodeId → List (List StoredEdge)
  | [], _ => [[]]
  | step :: steps, x =>
    (kept o step x).flatMap fun e => (keptTrails o steps (step.far e.2)).map (e :: ·)

/-- A kept trail starts with a kept edge. -/
theorem mem_keptTrails_cons {es : List StoredEdge} : es ∈ keptTrails o (step :: steps) x ↔
    ∃ e ∈ kept o step x, ∃ rest ∈ keptTrails o steps (step.far e.2), e :: rest = es := by
  simp [keptTrails]

/-- The rows of a run are those of the kept trails. -/
theorem rows_runSteps (h : ∀ step ∈ steps, step.edge.repeat = none)
    (frontier : List (MatchRow × NodeId)) : (runSteps o steps frontier).map Prod.fst =
      frontier.flatMap fun r => (keptTrails o steps r.2).map (trailRow steps r.1) := by
  induction steps generalizing frontier with
  | nil =>
    rw [runSteps, List.foldl_nil, List.map_eq_flatMap]
    rfl
  | cons step steps ih =>
    have hrest : ∀ step ∈ steps, step.edge.repeat = none :=
      fun step hstep => h step (List.mem_cons_of_mem _ hstep)
    calc (runSteps o (step :: steps) frontier).map Prod.fst
        = (runSteps o steps (frontier.flatMap (expandStep o step))).map Prod.fst := rfl
      _ = (frontier.flatMap (expandStep o step)).flatMap fun r =>
            (keptTrails o steps r.2).map (trailRow steps r.1) := ih hrest _
      _ = frontier.flatMap fun r =>
            (keptTrails o (step :: steps) r.2).map (trailRow (step :: steps) r.1) := by
        rw [List.flatMap_assoc]
        refine List.flatMap_congr fun r _ => ?_
        obtain ⟨row, x⟩ := r
        rw [expandStep_of_one_hop (h step List.mem_cons_self), List.flatMap_map, keptTrails,
          List.map_flatMap]
        refine List.flatMap_congr fun e _ => ?_
        rw [List.map_map]
        rfl

/-- A kept trail is a trail. -/
theorem isTrail_of_mem_keptTrails {es : List StoredEdge} (h : es ∈ keptTrails o steps x) :
    IsTrail o steps x es := by
  induction steps generalizing x es with
  | nil =>
    rw [List.mem_singleton.mp h]
    trivial
  | cons step steps ih =>
    obtain ⟨e, he, rest, hrest, rfl⟩ := mem_keptTrails_cons.mp h
    exact ⟨(takes_of_mem_kept he).1, ih hrest⟩

/-- Every trail is kept once. -/
theorem nodup_keptTrails : (keptTrails o steps x).Nodup := by
  induction steps generalizing x with
  | nil => exact List.nodup_singleton _
  | cons step steps ih =>
    refine List.nodup_flatMap.mpr ⟨fun e _ => ih.map (List.cons_injective), ?_⟩
    refine (List.pairwise_map.mp nodup_kept).imp fun hfar => ?_
    intro es hes hes'
    obtain ⟨rest, -, rfl⟩ := List.mem_map.mp hes
    obtain ⟨rest', -, heq⟩ := List.mem_map.mp hes'
    obtain ⟨rfl, -⟩ := List.cons.inj heq
    exact hfar rfl

/-- The paths that have a row, in the order of the rows. -/
def planPaths (o : Ontology) (plan : TraversalPlan) : List PlanPath :=
  (o.nodes.toList.filter fun n => matchNode n.2 plan.seed).flatMap fun n =>
    (keptTrails o plan.steps n.2.id).map fun es => (n, es)

/-- A path of a plan is a kept trail from a seed. -/
theorem mem_planPaths {plan : TraversalPlan} {p : PlanPath} : p ∈ planPaths o plan ↔
    p.1 ∈ o.nodes.toList ∧ matchNode p.1.2 plan.seed ∧
      p.2 ∈ keptTrails o plan.steps p.1.2.id := by
  obtain ⟨n, es⟩ := p
  simp only [planPaths, List.mem_flatMap, List.mem_filter, List.mem_map, Prod.mk.injEq]
  constructor
  · intro h
    obtain ⟨n', hn, es', hes, rfl, rfl⟩ := h
    exact ⟨hn.1, hn.2, hes⟩
  · intro h
    exact ⟨n, ⟨h.1, h.2.1⟩, es, h.2.2, rfl, rfl⟩

/-- Every path of a plan is kept once. -/
theorem nodup_planPaths {plan : TraversalPlan} : (planPaths o plan).Nodup := by
  have hnodes : o.nodes.toList.Nodup := by
    refine (Std.ExtTreeMap.distinct_keys_toList (t := o.nodes)).imp ?_
    rintro n n' hne rfl
    exact hne Std.ReflCmp.compare_self
  refine List.nodup_flatMap.mpr ⟨fun n _ => ?_, ?_⟩
  · exact nodup_keptTrails.map fun es es' h => (Prod.mk.inj h).2
  · refine (hnodes.filter _).imp fun hne p hp hp' => ?_
    obtain ⟨es, -, rfl⟩ := List.mem_map.mp hp
    obtain ⟨es', -, heq⟩ := List.mem_map.mp hp'
    exact hne (Prod.mk.inj heq).1.symm

/-- The rows of a plain plan are those of the paths that are followed. -/
theorem traverse_of_plain {plan : TraversalPlan} (h : plan.Plain) :
    traverse o plan = (planPaths o plan).map plan.rowOf := by
  have hrows : traverse o plan =
      (runSteps o plan.steps (seedFrontier o plan.seed)).map Prod.fst := by
    simp [traverse, applyOrderingAndProjection, h.order, h.skip, h.limit, h.columns]
  rw [hrows, rows_runSteps h.hops, planPaths, List.map_flatMap, seedFrontier, BTreeMap.vals,
    List.filter_map, List.map_map, List.flatMap_map]
  refine List.flatMap_congr fun n _ => ?_
  rw [List.map_map]
  rfl

/-- A plain plan has a row for each path exactly when it follows every path. -/
theorem oneRowEach_iff_mem {plan : TraversalPlan} (h : plan.Plain) :
    OneRowEach o plan ↔ ∀ p, IsPlanPath o plan p → p ∈ planPaths o plan := by
  have hsound : ∀ p ∈ planPaths o plan, IsPlanPath o plan p := by
    intro p hp
    obtain ⟨hstored, hmatch, htrail⟩ := mem_planPaths.mp hp
    exact ⟨hstored, hmatch, isTrail_of_mem_keptTrails htrail⟩
  constructor
  · intro hone p hp
    obtain ⟨paths, hnodup, hmem, hperm⟩ := hone
    -- the rows are as many as the paths, so the followed paths are all paths
    rw [traverse_of_plain h] at hperm
    have hlength : (planPaths o plan).length = paths.length := by
      simpa using hperm.length_eq
    have hsubperm := List.subperm_of_subset (@nodup_planPaths o plan)
      fun p hp => (hmem p).mpr (hsound p hp)
    exact (hsubperm.perm_of_length_le hlength.ge).mem_iff.mpr ((hmem p).mpr hp)
  · intro hall
    exact ⟨planPaths o plan, nodup_planPaths, fun p => ⟨hsound p, hall p⟩,
      by rw [traverse_of_plain h]⟩

/-- A lone edge is kept. -/
theorem mem_kept_of_lone {e : StoredEdge} (h : Takes o step x e) (hlone : LoneHop o step e) :
    e ∈ kept o step x := by
  obtain ⟨hloop, honly⟩ := hlone
  rw [h.near] at hloop honly
  obtain ⟨e', he', hfar⟩ := exists_mem_kept h hloop
  have htakes := (takes_of_mem_kept he').1
  rw [← honly e' htakes.stored htakes.matched htakes.near hfar]
  exact he'

/-- A trail of lone edges is kept. -/
theorem mem_keptTrails_of_lone {es : List StoredEdge} (h : IsTrail o steps x es)
    (hlone : ∀ hop ∈ steps.zip es, LoneHop o hop.1 hop.2) : es ∈ keptTrails o steps x := by
  induction steps generalizing x es with
  | nil =>
    cases es with
    | nil => exact List.mem_singleton_self _
    | cons e es => exact h.elim
  | cons step steps ih =>
    cases es with
    | nil => exact h.elim
    | cons e es =>
      have hkept := mem_kept_of_lone h.1 (hlone (step, e) List.mem_cons_self)
      have hrest := ih h.2 fun hop hhop => hlone hop (List.mem_cons_of_mem _ hhop)
      exact mem_keptTrails_cons.mpr ⟨e, hkept, es, hrest, rfl⟩

/-- Where every trail is followed, no other edge could be taken in place of one of a trail. -/
theorem lone_of_mem_keptTrails (h : ∀ es, IsTrail o steps x es → es ∈ keptTrails o steps x)
    {es : List StoredEdge} (htrail : IsTrail o steps x es) :
    ∀ hop ∈ steps.zip es, LoneHop o hop.1 hop.2 := by
  induction steps generalizing x es with
  | nil => exact fun hop hhop => absurd hhop List.not_mem_nil
  | cons step steps ih =>
    cases es with
    | nil => exact htrail.elim
    | cons e es =>
      obtain ⟨htakes, hrest⟩ := htrail
      have hfirst : ∀ e' es', Takes o step x e' → IsTrail o steps (step.far e'.2) es' →
          e' ∈ kept o step x ∧ es' ∈ keptTrails o steps (step.far e'.2) := by
        intro e' es' htakes' hrest'
        obtain ⟨e'', hkept, rest, hmem, heq⟩ :=
          mem_keptTrails_cons.mp (h (e' :: es') ⟨htakes', hrest'⟩)
        obtain ⟨rfl, rfl⟩ := List.cons.inj heq
        exact ⟨hkept, hmem⟩
      intro hop hhop
      obtain rfl | hhop := List.mem_cons.mp hhop
      · have hkept := (hfirst e es htakes hrest).1
        refine ⟨htakes.near ▸ (takes_of_mem_kept hkept).2, fun e' hstored hmatch hnear hfar => ?_⟩
        have htakes' : Takes o step x e' :=
          ⟨hstored, hmatch, hnear.trans htakes.near, hfar ▸ htakes.target⟩
        have hkept' := (hfirst e' es htakes' (hfar ▸ hrest)).1
        exact List.inj_on_of_nodup_map nodup_kept hkept' hkept hfar
      · exact ih (fun es' hes' => (hfirst e es' htakes hes').2) hrest hop hhop

/-- A plan without repeats has exactly one row for each of its paths exactly when no path takes
a loop or one of several matching edges with the same ends. -/
theorem oneRowEach_iff_lone (o : Ontology) (plan : TraversalPlan) (h : plan.Plain) :
    OneRowEach o plan ↔
      ∀ p, IsPlanPath o plan p → ∀ hop ∈ plan.steps.zip p.2, LoneHop o hop.1 hop.2 := by
  rw [oneRowEach_iff_mem h]
  constructor
  · intro hall p hp
    refine lone_of_mem_keptTrails (fun es hes => ?_) hp.2.2
    exact (mem_planPaths.mp (hall (p.1, es) ⟨hp.1, hp.2.1, hes⟩)).2.2
  · intro hlone p hp
    exact mem_planPaths.mpr ⟨hp.1, hp.2.1, mem_keptTrails_of_lone hp.2.2 (hlone p hp)⟩

/-- One hop from anywhere to anywhere. -/
private def hopPlan : TraversalPlan :=
  { TraversalPlan.start .any with steps := [⟨.any, .any, true⟩] }

private theorem plain_hopPlan : hopPlan.Plain :=
  ⟨by simp [hopPlan, EdgePattern.any], rfl, rfl, rfl, rfl⟩

/-- `1 → 2`. -/
private def oneArrow : Ontology :=
  ((Ontology.empty.upsertNode ⟨.filled 1, none, [], ∅⟩).upsertNode
    ⟨.filled 2, none, [], ∅⟩).upsertEdge (arrow 1 1 2)

/-- `1 → 2`, twice. -/
private def twoArrows : Ontology := oneArrow.upsertEdge (arrow 2 1 2)

private theorem mem_edges_oneArrow {e : StoredEdge} (h : e ∈ oneArrow.edges.toList) :
    e = (.filled 1, arrow 1 1 2) := by
  obtain ⟨k, e⟩ := e
  rw [Std.ExtTreeMap.mem_toList_iff_getElem?_eq_some] at h
  simp only [oneArrow, Ontology.upsertEdge, BTreeMap.get_insert] at h
  by_cases hk : (arrow 1 1 2).id = k
  · rw [if_pos hk] at h
    rw [← Option.some.inj h, ← hk]
    rfl
  · simp [hk, Ontology.upsertNode, Ontology.empty] at h

/-- The plan has one row for the path over one edge. -/
theorem oneRowEach_oneArrow : OneRowEach oneArrow hopPlan := by
  refine (oneRowEach_iff_lone oneArrow hopPlan plain_hopPlan).mpr fun p hp hop hhop => ?_
  obtain ⟨n, es⟩ := p
  cases es with
  | nil => exact hp.2.2.elim
  | cons e es =>
    obtain ⟨htakes, -⟩ := hp.2.2
    have he := mem_edges_oneArrow htakes.stored
    obtain rfl : hop = (⟨.any, .any, true⟩, e) := by simpa [hopPlan] using hhop
    refine ⟨?_, fun e' he' _ _ _ => (mem_edges_oneArrow he').trans he.symm⟩
    rw [he]
    exact fun h => absurd (Id.filled_inj.mp h) (by decide)

private theorem isPlanPath_twoArrows {i : UInt8} (h : twoArrows.edges[(.filled i : EdgeId)]? =
    some (arrow i 1 2)) : IsPlanPath twoArrows hopPlan
      ((.filled 1, ⟨.filled 1, none, [], ∅⟩), [(.filled i, arrow i 1 2)]) := by
  refine ⟨?_, by simp [matchNode, matchAny, hopPlan, TraversalPlan.start, NodePattern.any],
    ⟨Std.ExtTreeMap.mem_toList_iff_getElem?_eq_some.mpr h, ?_, rfl, ⟨.filled 2, none, [], ∅⟩,
      ?_, ?_⟩,
    trivial⟩
  · rw [Std.ExtTreeMap.mem_toList_iff_getElem?_eq_some]
    simp only [twoArrows, oneArrow, Ontology.upsertEdge, Ontology.upsertNode, BTreeMap.get_insert]
    rfl
  · simp [matchEdge, EdgePattern.any]
  · simp only [twoArrows, oneArrow, Ontology.upsertEdge, Ontology.upsertNode, BTreeMap.get_insert]
    rfl
  · simp [matchNode, matchAny, NodePattern.any]

/-- The paths over two edges with the same ends share a row. -/
theorem twoArrows_share_a_row : ¬OneRowEach twoArrows hopPlan := by
  intro hone
  have hall := (oneRowEach_iff_mem plain_hopPlan).mp hone
  have hkept : ∀ i : UInt8, twoArrows.edges[(.filled i : EdgeId)]? = some (arrow i 1 2) →
      ((.filled i, arrow i 1 2) : StoredEdge) ∈ kept twoArrows ⟨.any, .any, true⟩ (.filled 1) := by
    intro i hi
    have hmem := (mem_planPaths.mp (hall _ (isPlanPath_twoArrows hi))).2.2
    obtain ⟨e, he, rest, -, heq⟩ := mem_keptTrails_cons.mp hmem
    exact (List.cons.inj heq).1 ▸ he
  have hfirst := hkept 1 (by
    simp only [twoArrows, oneArrow, Ontology.upsertEdge, BTreeMap.get_insert, arrow]
    rfl)
  have hsecond := hkept 2 (by
    simp only [twoArrows, oneArrow, Ontology.upsertEdge, BTreeMap.get_insert, arrow]
    rfl)
  have heq := List.inj_on_of_nodup_map nodup_kept hfirst hsecond rfl
  exact absurd (Id.filled_inj.mp (Prod.mk.inj heq).1) (by decide)

end AtomrOntology
