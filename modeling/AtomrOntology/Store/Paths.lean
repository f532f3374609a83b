import AtomrOntology.Store.Hops

/-!
# Paths behind the rows

The expansion of a step goes through layers. Each entry of a layer was reached over a path of
as many edges as the layer is deep, no node is in two entries, and every layer holds a node
that no layer before it holds. So a step emits one row for each target in its window, the
nearest first, and each row of a plan is witnessed by a path through all of its steps.
-/

namespace AtomrOntology

open Walk

variable {o : Ontology} {step : TraversalStep} {row : MatchRow} {start x y : NodeId}

/-- Stored matching edges that lead on from a node, one after another. -/
inductive Path (o : Ontology) (step : TraversalStep) (x : NodeId) : List Edge → NodeId → Prop
  | nil : Path o step x [] x
  | snoc {es : List Edge} {e : Edge} : Path o step x es (step.near e) → e ∈ o.edges.vals →
    matchEdge e step.edge → Path o step x (es ++ [e]) (step.far e)

/-- A path is a walk of hops. -/
theorem Path.steps {es : List Edge} (h : Path o step x es y) :
    Steps (Hop o step) x es.length y := by
  induction h with
  | nil => exact .refl
  | snoc _ he hmatch ih =>
    rw [List.length_append, List.length_singleton]
    exact ih.snoc ⟨_, he, hmatch, rfl, rfl⟩

/-- What a row becomes at the end of a step: the last edge, if there is one, and the end node
are bound. -/
def TraversalStep.bind (step : TraversalStep) (row : MatchRow) (last : Option EdgeId)
    (y : NodeId) : MatchRow :=
  let row := match step.edge.bind, last with
    | some name, some id => row.bindEdge name id
    | _, _ => row
  match step.target.bind with
  | some name => row.bindNode name y
  | none => row

/-- An entry is emitted if its node is a target. -/
theorem emitEntry_eq_some {entry : LayerEntry} {r : MatchRow × NodeId} :
    emitEntry o step entry = some r ↔
      IsTarget o step entry.2.1 ∧ r = (step.bind entry.1 entry.2.2 entry.2.1, entry.2.1) := by
  obtain ⟨row, cur, last⟩ := entry
  unfold emitEntry IsTarget
  cases hnode : o.nodes[cur]? with
  | none => simp [hnode]
  | some node =>
    by_cases hmatch : matchNode node step.target
    · simp only [hnode, hmatch, Bool.not_true, Bool.false_eq_true, if_false, Option.some.injEq,
        exists_eq_left', true_and]
      exact eq_comm
    · simp [hnode, hmatch]

/-- A followed candidate comes from an edge that matches. -/
theorem mem_followCandidates {es : List Edge} {visited : BTreeSet NodeId} {entry : LayerEntry}
    (h : entry ∈ (followCandidates step row es visited).1) :
    ∃ e ∈ es, matchEdge e step.edge ∧ entry = (row, step.far e, some e.id) := by
  induction es generalizing visited with
  | nil => simp [followCandidates] at h
  | cons e es ih =>
    by_cases hskip : matchEdge e step.edge → step.far e ∈ visited
    · rw [followCandidates_skip hskip] at h
      obtain ⟨e', he', h'⟩ := ih h
      exact ⟨e', List.mem_cons_of_mem e he', h'⟩
    · obtain ⟨hmatch, hnew⟩ := Classical.not_imp.mp hskip
      rw [followCandidates_take hmatch hnew] at h
      obtain rfl | h := List.mem_cons.mp h
      · exact ⟨e, List.mem_cons_self, hmatch, rfl⟩
      · obtain ⟨e', he', h'⟩ := ih h
        exact ⟨e', List.mem_cons_of_mem e he', h'⟩

/-- The nodes of a layer, in the order of its entries. -/
def layerNodes (layer : List LayerEntry) : List NodeId := layer.map fun entry => entry.2.1

/-- The nodes of a layer are those reached in it. -/
theorem mem_layerNodes {layer : List LayerEntry} : y ∈ layerNodes layer ↔ Reached layer y := by
  simp [layerNodes, Reached]

/-- No node is followed twice. -/
theorem nodup_followCandidates (es : List Edge) (visited : BTreeSet NodeId) :
    (layerNodes (followCandidates step row es visited).1).Nodup := by
  induction es generalizing visited with
  | nil => simp [followCandidates, layerNodes]
  | cons e es ih =>
    by_cases hskip : matchEdge e step.edge → step.far e ∈ visited
    · rw [followCandidates_skip hskip]
      exact ih visited
    · obtain ⟨hmatch, hnew⟩ := Classical.not_imp.mp hskip
      rw [followCandidates_take hmatch hnew]
      refine List.nodup_cons.mpr ⟨fun hmem => ?_, ih _⟩
      have hreached := mem_layerNodes.mp hmem
      rw [(followCandidates_spec row es (visited.insert (step.far e)) (step.far e)).1] at hreached
      exact hreached.2 (BTreeSet.mem_insert.mpr (Or.inl rfl))

/-- An entry of the next layer comes from one of this layer by an edge. -/
theorem mem_nextLayer {layer : List LayerEntry} {visited : BTreeSet NodeId} {entry : LayerEntry}
    (h : entry ∈ (nextLayer o step layer visited).1) : ∃ prev ∈ layer, ∃ e ∈ o.edges.vals,
      matchEdge e step.edge ∧ step.near e = prev.2.1 ∧ entry = (prev.1, step.far e, some e.id) := by
  induction layer generalizing visited with
  | nil => simp [nextLayer] at h
  | cons prev layer ih =>
    rw [nextLayer_cons] at h
    obtain h | h := List.mem_append.mp h
    · obtain ⟨e, he, hmatch, rfl⟩ := mem_followCandidates h
      obtain ⟨hstored, hnear⟩ := mem_candidates.mp he
      exact ⟨prev, List.mem_cons_self, e, hstored, hmatch, hnear, rfl⟩
    · obtain ⟨prev', hprev, h'⟩ := ih h
      exact ⟨prev', List.mem_cons_of_mem prev hprev, h'⟩

/-- No node is twice in the next layer. -/
theorem nodup_nextLayer (layer : List LayerEntry) (visited : BTreeSet NodeId) :
    (layerNodes (nextLayer o step layer visited).1).Nodup := by
  induction layer generalizing visited with
  | nil => simp [nextLayer, layerNodes]
  | cons prev layer ih =>
    rw [nextLayer_cons, layerNodes, List.map_append]
    refine List.nodup_append.mpr ⟨nodup_followCandidates _ _, ih _, fun y hy z hz heq => ?_⟩
    -- what the first entry led to is visited before the others are followed
    have hspec := @followCandidates_spec step prev.1 (candidates o step prev.2.1) visited y
    have hhere := hspec.1.mp (mem_layerNodes.mp hy)
    have hthere := (nextLayer_spec layer _ y).1.mp (mem_layerNodes.mp (heq ▸ hz))
    exact hthere.2 (hspec.2.mpr (Or.inl hhere.1))

/-- A layer of the expansion from a start, with what was visited up to it. -/
structure LayerAt (o : Ontology) (step : TraversalStep) (row : MatchRow) (start : NodeId)
    (depth : Nat) (visited : BTreeSet NodeId) (layer : List LayerEntry) : Prop where
  nodes : ∀ y, Reached layer y ↔ AtDistance (Hop o step) start depth y
  visited : ∀ y, y ∈ visited ↔ Within (Hop o step) start depth y
  distinct : (layerNodes layer).Nodup
  traced : ∀ entry ∈ layer, entry.1 = row ∧ ∃ es, Path o step start es entry.2.1 ∧
    es.length = depth ∧ entry.2.2 = es.getLast?.map Edge.id

/-- The first layer is the start. -/
theorem LayerAt.first : LayerAt o step row start 0 ((∅ : BTreeSet NodeId).insert start)
    [(row, start, none)] where
  nodes y := by simp [Reached, eq_comm]
  visited y := by
    rw [BTreeSet.mem_insert]
    simp
  distinct := by simp [layerNodes]
  traced entry h := by
    obtain rfl := List.mem_singleton.mp h
    exact ⟨rfl, [], .nil, rfl, rfl⟩

/-- The successors that were not visited are the nodes at the next distance. -/
theorem LayerAt.next {depth : Nat} {visited : BTreeSet NodeId} {layer : List LayerEntry}
    (h : LayerAt o step row start depth visited layer) :
    LayerAt o step row start (depth + 1) (nextLayer o step layer visited).2
      (nextLayer o step layer visited).1 where
  nodes y := by
    rw [(nextLayer_spec layer visited y).1, atDistance_succ, h.visited]
    simp only [h.nodes]
  visited y := by
    rw [(nextLayer_spec layer visited y).2, within_succ, atDistance_succ, h.visited]
    simp only [h.nodes]
    by_cases hw : Within (Hop o step) start depth y
    · simp [hw]
    · simp [hw]
  distinct := nodup_nextLayer layer visited
  traced entry hentry := by
    obtain ⟨prev, hprev, e, he, hmatch, hnear, rfl⟩ := mem_nextLayer hentry
    obtain ⟨hrow, es, hpath, hlength, -⟩ := h.traced prev hprev
    rw [← hnear] at hpath
    exact ⟨hrow, es ++ [e], hpath.snoc he hmatch, by simp [hlength], by simp⟩

/-- The layers that the expansion of a step goes through, with the depths that are left. -/
def layersFrom (o : Ontology) (step : TraversalStep) :
    Nat → BTreeSet NodeId → List LayerEntry → List (List LayerEntry)
  | 0, _, layer => [layer]
  | left + 1, visited, layer =>
    let (next, visited) := nextLayer o step layer visited
    if next.isEmpty then [layer] else layer :: layersFrom o step left visited next

/-- The layers of a step from one frontier entry. -/
def stepLayers (o : Ontology) (step : TraversalStep) (row : MatchRow) (start : NodeId) :
    List (List LayerEntry) :=
  layersFrom o step step.range.max.toNat ((∅ : BTreeSet NodeId).insert start) [(row, start, none)]

/-- What a layer at a depth emits. -/
def emitLayer (o : Ontology) (step : TraversalStep) (layer : List LayerEntry × Nat) :
    List (MatchRow × NodeId) :=
  if step.range.min.toNat ≤ layer.2 then layer.1.filterMap (emitEntry o step) else []

theorem expandLayers_eq (left depth : Nat) (visited : BTreeSet NodeId) (layer : List LayerEntry) :
    expandLayers o step left depth visited layer =
      ((layersFrom o step left visited layer).zipIdx depth).flatMap (emitLayer o step) := by
  induction left generalizing depth visited layer with
  | zero => simp [expandLayers, layersFrom, emitLayer]
  | succ left ih =>
    rw [expandLayers, layersFrom]
    by_cases hempty : (nextLayer o step layer visited).1.isEmpty
    · simp [hempty, emitLayer]
    · simp only [hempty, Bool.false_eq_true, if_false, List.zipIdx_cons, List.flatMap_cons, ih]
      rfl

/-- Every layer of an expansion holds the nodes at its depth, and there are some. -/
theorem layersFrom_spec {left depth k : Nat} {visited : BTreeSet NodeId}
    {layer layer' : List LayerEntry} (h : LayerAt o step row start depth visited layer)
    (hne : layer ≠ []) (hmem : (layer', k) ∈ (layersFrom o step left visited layer).zipIdx depth) :
    layer' ≠ [] ∧ ∃ visited, LayerAt o step row start k visited layer' := by
  induction left generalizing depth visited layer with
  | zero =>
    obtain ⟨rfl, rfl⟩ : layer' = layer ∧ k = depth := by simpa [layersFrom] using hmem
    exact ⟨hne, visited, h⟩
  | succ left ih =>
    rw [layersFrom] at hmem
    by_cases hempty : (nextLayer o step layer visited).1.isEmpty
    · obtain ⟨rfl, rfl⟩ : layer' = layer ∧ k = depth := by simpa [hempty] using hmem
      exact ⟨hne, visited, h⟩
    · simp only [hempty, Bool.false_eq_true, if_false, List.zipIdx_cons, List.mem_cons,
        Prod.mk.injEq] at hmem
      obtain ⟨rfl, rfl⟩ | hmem := hmem
      · exact ⟨hne, visited, h⟩
      · exact ih h.next (by simpa using hempty) hmem

/-- A step emits what its layers emit. -/
theorem expandStep_eq : expandStep o step (row, start) =
    (stepLayers o step row start).zipIdx.flatMap (emitLayer o step) :=
  expandLayers_eq _ _ _ _

/-- The layers of a step are not empty, and each is at its depth. -/
theorem stepLayers_spec {k : Nat} {layer : List LayerEntry}
    (h : (layer, k) ∈ (stepLayers o step row start).zipIdx) :
    layer ≠ [] ∧ ∃ visited, LayerAt o step row start k visited layer :=
  layersFrom_spec .first (List.cons_ne_nil _ _) h

/-- Only the start and the far ends of edges are reached. -/
theorem finite_reachable (o : Ontology) (step : TraversalStep) (start : NodeId) :
    {y | y ≠ start ∧ ∃ n, Steps (Hop o step) start n y}.Finite := by
  refine (List.finite_toSet (o.edges.vals.map step.far)).subset ?_
  intro y h
  obtain ⟨hne, n, hsteps⟩ := h
  cases hsteps with
  | refl => exact absurd rfl hne
  | snoc _ hop =>
    obtain ⟨e, he, -, -, hfar⟩ := hop
    exact List.mem_map.mpr ⟨e, he, hfar⟩

/-- Each layer but the first is paid for by a node that no other layer holds. -/
theorem length_stepLayers_le : (stepLayers o step row start).length ≤
    {y | y ≠ start ∧ ∃ n, Steps (Hop o step) start n y}.ncard + 1 := by
  refine length_le_ncard_reachable (finite_reachable o step start) fun k hk => ?_
  have hmem : ((stepLayers o step row start)[k], k) ∈ (stepLayers o step row start).zipIdx := by
    simp [List.mk_mem_zipIdx_iff_getElem?, hk]
  obtain ⟨hne, visited, hlayer⟩ := stepLayers_spec hmem
  obtain ⟨entry, hentry⟩ := List.exists_mem_of_ne_nil _ hne
  exact ⟨entry.2.1, (hlayer.nodes _).mp ⟨entry, hentry, rfl⟩⟩

/-- What a row of a layer says: its node is a target at the depth of the layer, and its
bindings are those at the end of a path that long. -/
theorem LayerAt.of_mem_emitLayer {k : Nat} {visited : BTreeSet NodeId} {layer : List LayerEntry}
    {r : MatchRow × NodeId} (h : LayerAt o step row start k visited layer)
    (hr : r ∈ emitLayer o step (layer, k)) : step.range.min.toNat ≤ k ∧ IsTarget o step r.2 ∧
      AtDistance (Hop o step) start k r.2 ∧ ∃ es, Path o step start es r.2 ∧ es.length = k ∧
        r.1 = step.bind row (es.getLast?.map Edge.id) r.2 := by
  unfold emitLayer at hr
  by_cases hmin : step.range.min.toNat ≤ k
  · rw [if_pos hmin] at hr
    obtain ⟨entry, hentry, hemit⟩ := List.mem_filterMap.mp hr
    obtain ⟨htarget, rfl⟩ := emitEntry_eq_some.mp hemit
    obtain ⟨rfl, es, hpath, hlength, hlast⟩ := h.traced entry hentry
    exact ⟨hmin, htarget, (h.nodes _).mp ⟨entry, hentry, rfl⟩, es, hpath, hlength, by rw [hlast]⟩
  · simp [hmin] at hr

/-- No node is emitted twice from a layer. -/
theorem nodup_emitLayer {k : Nat} {layer : List LayerEntry} (h : (layerNodes layer).Nodup) :
    (emitLayer o step (layer, k)).Pairwise fun r s => r.2 ≠ s.2 := by
  unfold emitLayer
  by_cases hmin : step.range.min.toNat ≤ k
  · rw [if_pos hmin]
    refine List.Pairwise.filterMap _ ?_ (List.pairwise_map.mp h)
    intro entry entry' hne r hr s hs
    obtain ⟨-, rfl⟩ := emitEntry_eq_some.mp hr
    obtain ⟨-, rfl⟩ := emitEntry_eq_some.mp hs
    exact hne
  · simp [hmin]

/-- A later row of a step is about another node, and not about a nearer one. -/
theorem pairwise_expandStep : (expandStep o step (row, start)).Pairwise fun r s => r.2 ≠ s.2 ∧
    ∀ m n, AtDistance (Hop o step) start m r.2 → AtDistance (Hop o step) start n s.2 → m ≤ n := by
  rw [expandStep_eq]
  refine List.pairwise_flatMap.mpr ⟨?_, ?_⟩
  · intro (layer, k) hlayer
    obtain ⟨-, visited, hat⟩ := stepLayers_spec hlayer
    refine (nodup_emitLayer hat.distinct).imp_of_mem fun hr hs hne => ⟨hne, ?_⟩
    intro m n hm hn
    rw [hm.unique (hat.of_mem_emitLayer hr).2.2.1, hn.unique (hat.of_mem_emitLayer hs).2.2.1]
  · have hdepths : (stepLayers o step row start).zipIdx.Pairwise fun l l' => l.2 < l'.2 := by
      rw [← List.pairwise_map (f := Prod.snd), List.zipIdx_map_snd]
      exact List.pairwise_lt_range'
    refine hdepths.imp_of_mem ?_
    intro (layer, k) (layer', k') hlayer hlayer' hlt r hr s hs
    obtain ⟨-, visited, hat⟩ := stepLayers_spec hlayer
    obtain ⟨-, visited', hat'⟩ := stepLayers_spec hlayer'
    have hdr := (hat.of_mem_emitLayer hr).2.2.1
    have hds := (hat'.of_mem_emitLayer hs).2.2.1
    refine ⟨fun heq => hlt.ne (hdr.unique (heq ▸ hds)), fun m n hm hn => ?_⟩
    rw [hm.unique hdr, hn.unique hds]
    exact hlt.le

/-- What a step emits from a start: one row for each target in its window, the nearest first,
bound at the end of a shortest path. -/
structure IsExpansion (o : Ontology) (step : TraversalStep) (row : MatchRow) (start : NodeId)
    (rows : List (MatchRow × NodeId)) : Prop where
  distinct : (rows.map Prod.snd).Nodup
  complete : ∀ y, y ∈ rows.map Prod.snd ↔ IsTarget o step y ∧
    ∃ n, step.range.min.toNat ≤ n ∧ n ≤ step.range.max.toNat ∧ AtDistance (Hop o step) start n y
  nearest : rows.Pairwise fun r s => ∀ m n, AtDistance (Hop o step) start m r.2 →
    AtDistance (Hop o step) start n s.2 → m ≤ n
  bound : ∀ r ∈ rows, ∃ es, Path o step start es r.2 ∧
    AtDistance (Hop o step) start es.length r.2 ∧
    r.1 = step.bind row (es.getLast?.map Edge.id) r.2

/-- A step expands a row as it should. -/
theorem isExpansion_expandStep (o : Ontology) (step : TraversalStep) (row : MatchRow)
    (start : NodeId) : IsExpansion o step row start (expandStep o step (row, start)) where
  distinct := List.pairwise_map.mpr (pairwise_expandStep.imp fun h => h.1)
  complete y := by
    rw [← @mem_expandStep o step row]
    simp
  nearest := pairwise_expandStep.imp fun h => h.2
  bound r hr := by
    rw [expandStep_eq] at hr
    obtain ⟨⟨layer, k⟩, hlayer, hr⟩ := List.mem_flatMap.mp hr
    obtain ⟨-, visited, hat⟩ := stepLayers_spec hlayer
    obtain ⟨-, -, hdistance, es, hpath, rfl, hbind⟩ := hat.of_mem_emitLayer hr
    exact ⟨es, hpath, hdistance, hbind⟩

/-- A step goes through no more than one layer and one for each other node it reaches, and
what these layers emit is its expansion. -/
theorem expandStep_spec (o : Ontology) (step : TraversalStep) (row : MatchRow) (start : NodeId) :
    (stepLayers o step row start).length ≤
        {y | y ≠ start ∧ ∃ n, Steps (Hop o step) start n y}.ncard + 1 ∧
      expandStep o step (row, start) =
        (stepLayers o step row start).zipIdx.flatMap (emitLayer o step) ∧
      IsExpansion o step row start (expandStep o step (row, start)) :=
  ⟨length_stepLayers_le, expandStep_eq, isExpansion_expandStep o step row start⟩

/-- The row of a seed node. -/
def NodePattern.seedRow (seed : NodePattern) (id : NodeId) : MatchRow :=
  match seed.bind with
  | some name => MatchRow.new.bindNode name id
  | none => .new

/-- A path through the steps of a plan, with the bindings along it: a stored seed, and for
each step a path in its window to one of its targets. -/
inductive Witnessed (o : Ontology) (seed : NodePattern) :
    List TraversalStep → MatchRow → NodeId → Prop
  | seed {node : Node} : node ∈ o.nodes.vals → matchNode node seed →
    Witnessed o seed [] (seed.seedRow node.id) node.id
  | step {steps : List TraversalStep} {step : TraversalStep} {row : MatchRow} {x y : NodeId}
    {es : List Edge} : Witnessed o seed steps row x → Path o step x es y →
    step.range.min.toNat ≤ es.length → es.length ≤ step.range.max.toNat → IsTarget o step y →
    Witnessed o seed (steps ++ [step]) (step.bind row (es.getLast?.map Edge.id) y) y

/-- Seeds are witnessed by themselves. -/
theorem witnessed_seedFrontier {seed : NodePattern} {r : MatchRow × NodeId}
    (h : r ∈ seedFrontier o seed) : Witnessed o seed [] r.1 r.2 := by
  obtain ⟨node, hnode, rfl⟩ := List.mem_map.mp h
  obtain ⟨hstored, hmatch⟩ := List.mem_filter.mp hnode
  exact .seed hstored hmatch

/-- A step goes on from a witness. -/
theorem Witnessed.expandStep {seed : NodePattern} {steps : List TraversalStep}
    {r : MatchRow × NodeId} (h : Witnessed o seed steps row start)
    (hr : r ∈ AtomrOntology.expandStep o step (row, start)) :
    Witnessed o seed (steps ++ [step]) r.1 r.2 := by
  have hexpansion := isExpansion_expandStep o step row start
  obtain ⟨es, hpath, hdistance, hbind⟩ := hexpansion.bound r hr
  obtain ⟨htarget, n, hmin, hmax, hn⟩ :=
    (hexpansion.complete r.2).mp (List.mem_map.mpr ⟨r, hr, rfl⟩)
  obtain rfl := hdistance.unique hn
  rw [hbind]
  exact h.step hpath hmin hmax htarget

/-- Steps extend the paths that witness rows. -/
theorem witnessed_runSteps {seed : NodePattern} {done steps : List TraversalStep}
    {frontier : List (MatchRow × NodeId)} (h : ∀ r ∈ frontier, Witnessed o seed done r.1 r.2) :
    ∀ r ∈ runSteps o steps frontier, Witnessed o seed (done ++ steps) r.1 r.2 := by
  induction steps generalizing done frontier with
  | nil => simpa [runSteps] using h
  | cons step steps ih =>
    have hstep : ∀ r ∈ frontier.flatMap (expandStep o step),
        Witnessed o seed (done ++ [step]) r.1 r.2 := by
      intro r hr
      obtain ⟨⟨row, start⟩, hfrontier, hr⟩ := List.mem_flatMap.mp hr
      exact (h _ hfrontier).expandStep hr
    simpa [runSteps] using ih hstep

/-- Without a projection, the rows of a plan are rows of its frontier. -/
theorem mem_of_mem_applyOrdering {rows : List MatchRow} {plan : TraversalPlan}
    (hcolumns : plan.returnColumns = []) (h : row ∈ applyOrderingAndProjection rows plan) :
    row ∈ rows := by
  unfold applyOrderingAndProjection at h
  simp only [hcolumns, List.isEmpty_nil, if_true] at h
  have hdrop : row ∈ (if plan.order.isEmpty then rows
      else rows.mergeSort fun a b => (compareRows plan.order a b).isLE).drop plan.skip.toNat := by
    cases hlimit : plan.limit with
    | none => simpa [hlimit] using h
    | some n => exact List.mem_of_mem_take (by simpa [hlimit] using h)
  have hsorted := List.mem_of_mem_drop hdrop
  by_cases horder : plan.order.isEmpty
  · simpa [horder] using hsorted
  · simpa [horder] using hsorted

/-- Every row of a plan that projects nothing is witnessed by a path through its steps. -/
theorem traverse_witnessed (o : Ontology) (plan : TraversalPlan)
    (hcolumns : plan.returnColumns = []) :
    ∀ row ∈ traverse o plan, ∃ y, Witnessed o plan.seed plan.steps row y := by
  intro row hrow
  obtain ⟨r, hr, rfl⟩ := List.mem_map.mp (mem_of_mem_applyOrdering hcolumns hrow)
  have hseed : ∀ r ∈ seedFrontier o plan.seed, Witnessed o plan.seed [] r.1 r.2 :=
    fun r hr => witnessed_seedFrontier hr
  exact ⟨r.2, witnessed_runSteps hseed r hr⟩

/-- Up to two hops from anywhere, the ends named. -/
private def trianglePlan : TraversalPlan :=
  { seed := { NodePattern.any with bind := some "a" }
    steps := [⟨{ EdgePattern.any with bind := some "e", «repeat» := some ⟨1, 2⟩ },
      { NodePattern.any with bind := some "b" }, true⟩]
    returnColumns := [], order := [], skip := 0, limit := none }

/-- The rows over the triangle are witnessed. -/
theorem triangle_rows_witnessed : traverse triangle trianglePlan ≠ [] ∧
    ∀ row ∈ traverse triangle trianglePlan,
      ∃ y, Witnessed triangle trianglePlan.seed trianglePlan.steps row y :=
  ⟨List.ne_nil_of_length_pos (by decide +kernel),
    traverse_witnessed triangle trianglePlan rfl⟩

end AtomrOntology
