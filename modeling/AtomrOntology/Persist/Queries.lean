import AtomrOntology.Store.Ordering

/-!
# Queries of the persistent store

The persistent store has its own matching, traversal and ordering, loop by loop the same as
those of the in-memory store: each loop that pushes onto a vector yields the list that the
in-memory store computes.
-/

namespace AtomrOntology

namespace Persist

mutual

/-- `match_node`. -/
def matchNode (node : Node) : NodePattern → Bool
  | ⟨_, types, properties, id, or, not⟩ =>
    if id.any fun id => node.id != id then false
    else if types.any fun ty => !node.hasType ty then false
    else if properties.toList.any fun kv => !hasProperty node.properties kv then false
    else if !or.isEmpty && !matchAny node or then false
    else if matchAny node not then false
    else true

/-- Whether one of several patterns matches. -/
def matchAny (node : Node) : List NodePattern → Bool
  | [] => false
  | pattern :: rest => if matchNode node pattern then true else matchAny node rest

end

/-- `match_edge`. -/
def matchEdge (edge : Edge) (pattern : EdgePattern) : Bool :=
  if pattern.label.any fun label => edge.label != label then false
  else if pattern.properties.toList.any fun kv => !hasProperty edge.properties kv then false
  else true

private theorem any_not {α : Type} (l : List α) (p : α → Bool) :
    (l.any fun a => !p a) = !l.all p := List.not_all_eq_any_not.symm

/-- A chain of early returns is a conjunction. -/
private theorem guards_eq (a b c d e f : Bool) :
    (if (!a) = true then false else if (!b) = true then false else if (!c) = true then false
      else if (!d && !e) = true then false else if f = true then false else true) =
      (a && b && c && (d || e) && !f) := by
  cases a <;> cases b <;> cases c <;> cases d <;> cases e <;> cases f <;> rfl

mutual

/-- The copy matches nodes as the store does. -/
theorem matchNode_eq (node : Node) :
    (pattern : NodePattern) → matchNode node pattern = AtomrOntology.matchNode node pattern
  | ⟨_, types, properties, id, or, not⟩ => by
    unfold matchNode AtomrOntology.matchNode
    rw [matchAny_eq node or, matchAny_eq node not, any_not, any_not]
    cases id with
    | none => exact guards_eq true _ _ _ _ _
    | some id => exact guards_eq (node.id == id) _ _ _ _ _

/-- It matches a list of patterns as the store does. -/
theorem matchAny_eq (node : Node) :
    (patterns : List NodePattern) → matchAny node patterns = AtomrOntology.matchAny node patterns
  | [] => rfl
  | pattern :: rest => by
    rw [matchAny, AtomrOntology.matchAny, matchNode_eq node pattern, matchAny_eq node rest]
    cases AtomrOntology.matchNode node pattern <;> rfl

end

private theorem two_guards_eq (a b : Bool) :
    (if (!a) = true then false else if (!b) = true then false else true) = (a && b) := by
  cases a <;> cases b <;> rfl

/-- It matches edges as the store does. -/
theorem matchEdge_eq (edge : Edge) (pattern : EdgePattern) :
    matchEdge edge pattern = AtomrOntology.matchEdge edge pattern := by
  unfold matchEdge AtomrOntology.matchEdge
  rw [any_not]
  cases pattern.label with
  | none => exact two_guards_eq true _
  | some label => exact two_guards_eq (edge.label == label) _

/-- The row of a matched node. -/
def seedRow (pattern : NodePattern) (node : Node) : MatchRow :=
  match pattern.bind with
  | some name => MatchRow.new.bindNode name node.id
  | none => .new

/-- `match_pattern`. -/
def matchPattern (o : Ontology) (pattern : NodePattern) : List MatchRow :=
  let out := o.nodes.vals.foldl (fun out node =>
    if matchNode node pattern then out ++ [seedRow pattern node] else out) []
  out.mergeSort fun a b => (compare a.nodes.vals.head? b.nodes.vals.head?).isLE

/-- The loop over the nodes for the seed of a plan. -/
def seedLoop (o : Ontology) (seed : NodePattern) : List (MatchRow × NodeId) :=
  o.nodes.vals.foldl (fun frontier node =>
    if matchNode node seed then frontier ++ [(seedRow seed node, node.id)] else frontier) []

section Steps

variable (o : Ontology) (step : TraversalStep)

/-- The loop over a layer that pushes its rows. -/
def emitLoop (layer : List LayerEntry) (next : List (MatchRow × NodeId)) :
    List (MatchRow × NodeId) :=
  layer.foldl (fun next entry =>
    match o.nodes[entry.2.1]? with
    | none => next
    | some targetNode =>
      if !matchNode targetNode step.target then next
      else
        let nr := match step.edge.bind, entry.2.2 with
          | some name, some eid => entry.1.bindEdge name eid
          | _, _ => entry.1
        let nr := match step.target.bind with
          | some name => nr.bindNode name entry.2.1
          | none => nr
        next ++ [(nr, entry.2.1)]) next

/-- The loop over the candidates of an entry. -/
def candidateLoop (accRow : MatchRow) (candidates : List Edge)
    (state : List LayerEntry × BTreeSet NodeId) : List LayerEntry × BTreeSet NodeId :=
  candidates.foldl (fun state edge =>
    if !matchEdge edge step.edge then state
    else
      let target := if step.outbound then edge.target else edge.source
      if state.2.contains target then state
      else (state.1 ++ [(accRow, target, some edge.id)], state.2.insert target)) state

/-- The loop over a layer that collects the next one. -/
def layerLoop (layer : List LayerEntry) (visited : BTreeSet NodeId) :
    List LayerEntry × BTreeSet NodeId :=
  layer.foldl (fun state entry =>
    let candidates :=
      if step.outbound then o.edges.vals.filter fun e => e.source = entry.2.1
      else o.edges.vals.filter fun e => e.target = entry.2.1
    candidateLoop step entry.1 candidates state) ([], visited)

/-- The loop over the depths, with the iterations that are left. -/
def depthLoop (min max : Nat) : Nat → Nat → BTreeSet NodeId → List LayerEntry →
    List (MatchRow × NodeId) → List (MatchRow × NodeId)
  | 0, _, _, _, next => next
  | left + 1, depth, visited, layer, next =>
    let next := if min ≤ depth then emitLoop o step layer next else next
    if depth = max then next
    else
      let (nextLayer, visited) := layerLoop o step layer visited
      if nextLayer.isEmpty then next
      else depthLoop min max left (depth + 1) visited nextLayer next

/-- Expand an entry of the frontier: depths `0..=max`. -/
def expandLoop (entry : MatchRow × NodeId) (next : List (MatchRow × NodeId)) :
    List (MatchRow × NodeId) :=
  let range := step.edge.repeat.getD ⟨1, 1⟩
  depthLoop o step range.min.toNat range.max.toNat (range.max.toNat + 1) 0
    ((∅ : BTreeSet NodeId).insert entry.2) [(entry.1, entry.2, none)] next

end Steps

/-- How two rows compare under the sort keys of a plan: the first key that tells them apart. -/
def compareRows (order : List (String × SortOrder)) (a b : MatchRow) : Ordering :=
  (order.findSome? fun key =>
    let cmp := compare a.nodes[key.1]? b.nodes[key.1]?
    if cmp ≠ .eq then
      some (match key.2 with
        | .ascending => cmp
        | .descending => cmp.swap)
    else none).getD .eq

/-- `apply_ordering_and_projection`. -/
def applyOrderingAndProjection (rows : List MatchRow) (plan : TraversalPlan) : List MatchRow :=
  let rows := if !plan.order.isEmpty then
      rows.mergeSort fun a b => (compareRows plan.order a b).isLE
    else rows
  let rows := if 0 < plan.skip then rows.drop (min plan.skip.toNat rows.length) else rows
  let rows := match plan.limit with
    | some n => rows.take n.toNat
    | none => rows
  if !plan.returnColumns.isEmpty then rows.map (.project plan.returnColumns) else rows

/-- `traverse`. -/
def traverse (o : Ontology) (plan : TraversalPlan) : List MatchRow :=
  let frontier := plan.steps.foldl (fun frontier step =>
    frontier.foldl (fun next entry => expandLoop o step entry next) []) (seedLoop o plan.seed)
  applyOrderingAndProjection (frontier.map Prod.fst) plan

/-- A loop that pushes what some items give. -/
theorem foldl_push {α β : Type} (f : α → Option β) (step : List β → α → List β)
    (hstep : ∀ out a, step out a = out ++ (f a).toList) (l : List α) (out : List β) :
    l.foldl step out = out ++ l.filterMap f := by
  induction l generalizing out with
  | nil => simp
  | cons a l ih =>
    rw [List.foldl_cons, hstep, ih, List.filterMap_cons, List.append_assoc]
    cases f a <;> rfl

/-- A loop that pushes several items at a time. -/
theorem foldl_append_all {α β : Type} (f : α → List β) (step : List β → α → List β)
    (hstep : ∀ out a, step out a = out ++ f a) (l : List α) (out : List β) :
    l.foldl step out = out ++ l.flatMap f := by
  induction l generalizing out with
  | nil => simp
  | cons a l ih => rw [List.foldl_cons, hstep, ih, List.flatMap_cons, List.append_assoc]

/-- What a loop pushes under a guard is a filtered list. -/
theorem filterMap_guard {α β : Type} (p : α → Bool) (f : α → β) (l : List α) :
    (l.filterMap fun a => if p a then some (f a) else none) = (l.filter p).map f := by
  induction l with
  | nil => rfl
  | cons a l ih => cases h : p a <;> simp [h, ih]

/-- The loop over seeds collects the frontier. -/
theorem seedLoop_eq (o : Ontology) (seed : NodePattern) :
    seedLoop o seed = seedFrontier o seed := by
  rw [seedLoop, foldl_push (fun node => if AtomrOntology.matchNode node seed then
      some (seedRow seed node, node.id) else none), filterMap_guard, List.nil_append]
  · rfl
  · intro out node
    rw [matchNode_eq]
    split <;> simp_all

/-- A pattern has the same matches. -/
theorem matchPattern_eq (o : Ontology) (pattern : NodePattern) :
    matchPattern o pattern = AtomrOntology.matchPattern o pattern := by
  have hloop : (o.nodes.vals.foldl (fun out node =>
      if matchNode node pattern then out ++ [seedRow pattern node] else out) []) =
        (seedFrontier o pattern).map Prod.fst := by
    rw [foldl_push (fun node => if AtomrOntology.matchNode node pattern then
        some (seedRow pattern node) else none), filterMap_guard, List.nil_append, seedFrontier,
      List.map_map]
    · rfl
    · intro out node
      rw [matchNode_eq]
      split <;> simp_all
  rw [matchPattern, hloop]
  rfl

section Steps

variable {o : Ontology} {step : TraversalStep}

/-- The loop over a layer emits its entries. -/
theorem emitLoop_eq (layer : List LayerEntry) (next : List (MatchRow × NodeId)) :
    emitLoop o step layer next = next ++ layer.filterMap (emitEntry o step) := by
  refine foldl_push (emitEntry o step) _ (fun out entry => ?_) layer next
  obtain ⟨row, cur, lastEdge⟩ := entry
  unfold emitEntry
  cases hget : o.nodes[cur]? with
  | none => simp [hget]
  | some node =>
    simp only [hget, matchNode_eq]
    split
    · exact (List.append_nil _).symm
    · rfl

/-- The loop over the edges of an entry follows its candidates. -/
theorem candidateLoop_eq (accRow : MatchRow) (edges : List Edge) (layer : List LayerEntry)
    (visited : BTreeSet NodeId) :
    candidateLoop step accRow edges (layer, visited) =
      (layer ++ (followCandidates step accRow edges visited).1,
        (followCandidates step accRow edges visited).2) := by
  induction edges generalizing layer visited with
  | nil => simp [candidateLoop, followCandidates]
  | cons edge edges ih =>
    have hfar : (if step.outbound then edge.target else edge.source) = step.far edge := rfl
    rw [followCandidates]
    unfold candidateLoop at ih ⊢
    rw [List.foldl_cons, matchEdge_eq, hfar]
    by_cases hmatch : AtomrOntology.matchEdge edge step.edge = true
    · by_cases hvisited : visited.contains (step.far edge) = true
      · simp only [hmatch, hvisited, Bool.not_true, Bool.false_eq_true, ↓reduceIte, ih]
      · simp only [hmatch, hvisited, Bool.not_true, Bool.false_eq_true, ↓reduceIte, ih,
          List.append_assoc, List.singleton_append]
    · simp only [hmatch, Bool.not_false, ↓reduceIte, ih]

/-- The loop over a layer makes the next one. -/
theorem layerLoop_eq (layer : List LayerEntry) (visited : BTreeSet NodeId) :
    layerLoop o step layer visited = nextLayer o step layer visited := by
  have hloop : ∀ (layer next : List LayerEntry) (visited : BTreeSet NodeId),
      layer.foldl (fun state entry => candidateLoop step entry.1 (if step.outbound then
          o.edges.vals.filter fun e => e.source = entry.2.1
        else o.edges.vals.filter fun e => e.target = entry.2.1) state) (next, visited) =
      (next ++ (nextLayer o step layer visited).1, (nextLayer o step layer visited).2) := by
    intro layer
    induction layer with
    | nil => simp [nextLayer]
    | cons entry layer ih =>
      intro next visited
      obtain ⟨row, cur, last⟩ := entry
      have hcandidates : (if step.outbound then o.edges.vals.filter fun e => e.source = cur
          else o.edges.vals.filter fun e => e.target = cur) = candidates o step cur := by
        unfold candidates TraversalStep.near
        split <;> rfl
      simp only [List.foldl_cons, hcandidates, candidateLoop_eq, ih, nextLayer, List.append_assoc]
  exact hloop layer [] visited

/-- The loop over depths expands a node, from the depth it has reached. -/
theorem depthLoop_eq (min left depth : Nat) (visited : BTreeSet NodeId) (layer : List LayerEntry)
    (next : List (MatchRow × NodeId)) (hmin : min = step.range.min.toNat) :
    depthLoop o step min (depth + left) (left + 1) depth visited layer next =
      next ++ expandLayers o step left depth visited layer := by
  have hemit : ∀ depth layer next', (if min ≤ depth then emitLoop o step layer next' else next') =
      next' ++ if step.range.min.toNat ≤ depth then layer.filterMap (emitEntry o step) else [] := by
    intro depth layer next'
    rw [hmin]
    split
    · exact emitLoop_eq layer next'
    · exact (List.append_nil _).symm
  induction left generalizing depth visited layer next with
  | zero =>
    rw [depthLoop, expandLayers, hemit]
    simp
  | succ left ih =>
    have hne : ¬depth = depth + (left + 1) := by omega
    have hmax : depth + (left + 1) = depth + 1 + left := by omega
    rw [depthLoop, expandLayers, hemit, layerLoop_eq]
    simp only [if_neg hne]
    split
    · rfl
    · rw [hmax, ih, List.append_assoc]

/-- The loop over the depths pushes the rows of an entry. -/
theorem expandLoop_eq (entry : MatchRow × NodeId) (next : List (MatchRow × NodeId)) :
    expandLoop o step entry next = next ++ expandStep o step entry := by
  have hloop := @depthLoop_eq o step step.range.min.toNat step.range.max.toNat 0
    ((∅ : BTreeSet NodeId).insert entry.2) [(entry.1, entry.2, none)] next rfl
  rw [Nat.zero_add] at hloop
  exact hloop

end Steps

/-- Rows are compared in the same way. -/
theorem compareRows_eq (order : List (String × SortOrder)) (a b : MatchRow) :
    compareRows order a b = AtomrOntology.compareRows order a b := by
  induction order with
  | nil => rfl
  | cons key order ih =>
    obtain ⟨binding, direction⟩ := key
    have hswap : compare b.nodes[binding]? a.nodes[binding]? =
        (compare a.nodes[binding]? b.nodes[binding]?).swap := Std.OrientedCmp.eq_swap
    rw [compareRows_cons, compareLex, ← ih]
    unfold compareRows compareKey
    rw [List.findSome?_cons]
    cases direction with
    | ascending => cases compare a.nodes[binding]? b.nodes[binding]? <;> rfl
    | descending =>
      simp only [hswap]
      cases compare a.nodes[binding]? b.nodes[binding]? <;> rfl

/-- Rows are ordered, cut and projected in the same way. -/
theorem applyOrderingAndProjection_eq (rows : List MatchRow) (plan : TraversalPlan) :
    applyOrderingAndProjection rows plan = AtomrOntology.applyOrderingAndProjection rows plan := by
  have hdrop : ∀ sorted : List MatchRow,
      (if 0 < plan.skip then sorted.drop (min plan.skip.toNat sorted.length) else sorted) =
        sorted.drop plan.skip.toNat := by
    intro sorted
    by_cases hskip : 0 < plan.skip
    · rw [if_pos hskip]
      rcases Nat.le_total plan.skip.toNat sorted.length with hle | hle
      · rw [Nat.min_eq_left hle]
      · rw [Nat.min_eq_right hle, List.drop_length, List.drop_of_length_le hle]
    · have hzero : plan.skip.toNat = 0 := Nat.eq_zero_of_not_pos hskip
      rw [if_neg hskip, hzero, List.drop_zero]
  unfold applyOrderingAndProjection AtomrOntology.applyOrderingAndProjection
  simp only [hdrop, compareRows_eq]
  cases plan.order.isEmpty <;> cases plan.returnColumns.isEmpty <;> rfl

/-- A plan has the same results. -/
theorem traverse_eq (o : Ontology) (plan : TraversalPlan) :
    traverse o plan = AtomrOntology.traverse o plan := by
  have hsteps : ∀ frontier : List (MatchRow × NodeId), plan.steps.foldl (fun frontier step =>
      frontier.foldl (fun next entry => expandLoop o step entry next) []) frontier =
        runSteps o plan.steps frontier := by
    intro frontier
    unfold runSteps
    congr 1
    funext frontier step
    exact foldl_append_all (expandStep o step) _ (fun out entry => expandLoop_eq entry out)
      frontier []
  rw [traverse, AtomrOntology.traverse, seedLoop_eq, hsteps]
  exact applyOrderingAndProjection_eq _ plan

end Persist

end AtomrOntology
