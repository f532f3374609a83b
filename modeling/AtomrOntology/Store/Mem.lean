import AtomrOntology.Core.Multimap
import AtomrOntology.Store.Pattern
import AtomrOntology.Store.Trait

/-!
# The in-memory store

Matching of patterns, the breadth-first execution of traversal plans, and the store
operations on an ontology and its ledger.
-/

namespace AtomrOntology

/-- What the lock of the in-memory store guards. -/
structure MemStore where
  ontology : Ontology
  provenance : ProvenanceLog

namespace MemStore

/-- Empty store. -/
def empty : MemStore := ⟨.empty, .empty⟩

/-- Initialize the store from an ontology. -/
def fromOntology (ontology : Ontology) : MemStore := ⟨ontology, .empty⟩

/-- Commit a delta with its activity. -/
def commitWithProvenance (s : MemStore) (delta : OntologyDelta) (activity : Activity) : MemStore :=
  ⟨s.ontology.applyDelta delta activity.id, s.provenance.recordActivity activity⟩

end MemStore

/-- A stored property equals a required one. Floats compare as floats. -/
def hasProperty (properties : BTreeMap String PropertyValue) (kv : String × PropertyValue) : Bool :=
  match properties[kv.1]? with
  | some v => v.eq kv.2
  | none => false

mutual

/-- `match_node`. -/
def matchNode (node : Node) : NodePattern → Bool
  | ⟨_, types, properties, id, or, not⟩ =>
    (match id with
      | some id => node.id == id
      | none => true) &&
    types.all node.hasType && properties.toList.all (hasProperty node.properties) &&
    (or.isEmpty || matchAny node or) && !matchAny node not

/-- Whether one of several patterns matches. -/
def matchAny (node : Node) : List NodePattern → Bool
  | [] => false
  | pattern :: rest => matchNode node pattern || matchAny node rest

end

/-- `match_edge`. -/
def matchEdge (edge : Edge) (pattern : EdgePattern) : Bool :=
  (match pattern.label with
    | some label => edge.label == label
    | none => true) &&
  pattern.properties.toList.all (hasProperty edge.properties)

namespace TraversalStep

/-- The end of an edge that a step leaves from. -/
def near (step : TraversalStep) (edge : Edge) : NodeId :=
  if step.outbound then edge.source else edge.target

/-- The end of an edge that a step leads to. -/
def far (step : TraversalStep) (edge : Edge) : NodeId :=
  if step.outbound then edge.target else edge.source

/-- The hops of a step; one unless it repeats. -/
def range (step : TraversalStep) : RangeInclusive := step.edge.repeat.getD ⟨1, 1⟩

end TraversalStep

/-- An entry of a layer: a row, the node reached and the edge that led to it. -/
abbrev LayerEntry := MatchRow × NodeId × Option EdgeId

/-- Edges that leave a node in the direction of a step. -/
def candidates (o : Ontology) (step : TraversalStep) (cur : NodeId) : List Edge :=
  o.edges.vals.filter fun e => step.near e = cur

/-- Follow matching candidates to nodes that were not visited yet. -/
def followCandidates (step : TraversalStep) (row : MatchRow) :
    List Edge → BTreeSet NodeId → List LayerEntry × BTreeSet NodeId
  | [], visited => ([], visited)
  | edge :: rest, visited =>
    if !matchEdge edge step.edge then followCandidates step row rest visited
    else if visited.contains (step.far edge) then followCandidates step row rest visited
    else
      let (next, visited) := followCandidates step row rest (visited.insert (step.far edge))
      ((row, step.far edge, some edge.id) :: next, visited)

/-- The layer after a given one. -/
def nextLayer (o : Ontology) (step : TraversalStep) :
    List LayerEntry → BTreeSet NodeId → List LayerEntry × BTreeSet NodeId
  | [], visited => ([], visited)
  | (row, cur, _) :: rest, visited =>
    let (here, visited) := followCandidates step row (candidates o step cur) visited
    let (there, visited) := nextLayer o step rest visited
    (here ++ there, visited)

/-- The row a layer entry emits, if its node is stored and matches the target. -/
def emitEntry (o : Ontology) (step : TraversalStep) : LayerEntry → Option (MatchRow × NodeId)
  | (row, cur, lastEdge) =>
    match o.nodes[cur]? with
    | none => none
    | some node =>
      if !matchNode node step.target then none
      else
        let row := match step.edge.bind, lastEdge with
          | some name, some id => row.bindEdge name id
          | _, _ => row
        let row := match step.target.bind with
          | some name => row.bindNode name cur
          | none => row
        some (row, cur)

/-- The layers from a depth on, with the depths that are left after it. -/
def expandLayers (o : Ontology) (step : TraversalStep) :
    Nat → Nat → BTreeSet NodeId → List LayerEntry → List (MatchRow × NodeId)
  | left, depth, visited, layer =>
    let emitted := if step.range.min.toNat ≤ depth then layer.filterMap (emitEntry o step) else []
    match left with
    | 0 => emitted
    | left + 1 =>
      let (layer, visited) := nextLayer o step layer visited
      if layer.isEmpty then emitted
      else emitted ++ expandLayers o step left (depth + 1) visited layer

/-- Expand one frontier entry through a step. -/
def expandStep (o : Ontology) (step : TraversalStep) : MatchRow × NodeId → List (MatchRow × NodeId)
  | (row, start) =>
    expandLayers o step step.range.max.toNat 0 ((∅ : BTreeSet NodeId).insert start)
      [(row, start, none)]

/-- The frontier before the first step. -/
def seedFrontier (o : Ontology) (seed : NodePattern) : List (MatchRow × NodeId) :=
  (o.nodes.vals.filter fun node => matchNode node seed).map fun node =>
    (match seed.bind with
      | some name => MatchRow.new.bindNode name node.id
      | none => .new, node.id)

/-- The frontier after some steps. -/
def runSteps (o : Ontology) (steps : List TraversalStep) (frontier : List (MatchRow × NodeId)) :
    List (MatchRow × NodeId) :=
  steps.foldl (fun frontier step => frontier.flatMap (expandStep o step)) frontier

/-- How two rows compare under the sort keys of a plan. -/
def compareRows (order : List (String × SortOrder)) (a b : MatchRow) : Ordering :=
  match order with
  | [] => .eq
  | (binding, direction) :: rest =>
    match compare a.nodes[binding]? b.nodes[binding]?, direction with
    | .eq, _ => compareRows rest a b
    | c, .ascending => c
    | c, .descending => c.swap

/-- Keep only the named bindings of a row. -/
def MatchRow.project (columns : List String) (row : MatchRow) : MatchRow :=
  { nodes := row.nodes.filter fun k _ => k ∈ columns
    edges := row.edges.filter fun k _ => k ∈ columns }

/-- Order, skip, limit and project. -/
def applyOrderingAndProjection (rows : List MatchRow) (plan : TraversalPlan) : List MatchRow :=
  let rows := if plan.order.isEmpty then rows
    else rows.mergeSort fun a b => (compareRows plan.order a b).isLE
  let rows := rows.drop plan.skip.toNat
  let rows := match plan.limit with
    | some n => rows.take n.toNat
    | none => rows
  if plan.returnColumns.isEmpty then rows else rows.map (.project plan.returnColumns)

/-- Execute a plan. -/
def traverse (o : Ontology) (plan : TraversalPlan) : List MatchRow :=
  let frontier := runSteps o plan.steps (seedFrontier o plan.seed)
  applyOrderingAndProjection (frontier.map Prod.fst) plan

/-- Apply a node pattern. Rows are ordered by the node they bind. -/
def matchPattern (o : Ontology) (pattern : NodePattern) : List MatchRow :=
  let rows := (seedFrontier o pattern).map Prod.fst
  rows.mergeSort fun a b => (compare a.nodes.vals.head? b.nodes.vals.head?).isLE

end AtomrOntology
