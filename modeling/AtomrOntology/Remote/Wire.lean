import AtomrOntology.Persist.Nesting
import AtomrOntology.Store.Pattern
import AtomrOntology.Store.Trait

/-!
# Wire mirrors

Patterns, plans, rows, deltas and diffs have no JSON form of their own, and JSON objects
have no ids for keys. Each is mirrored by a struct that has one, with conversions in both
directions. Patterns nest, so their codec is built level by level.
-/

namespace AtomrOntology

namespace Remote

structure WireNodePattern where
  bind : Option String
  types : List String
  properties : BTreeMap String PropertyValue
  id : Option NodeId
  or : List WireNodePattern
  not : List WireNodePattern

namespace WireNodePattern

mutual

def ofPattern : NodePattern → WireNodePattern
  | ⟨bind, types, properties, id, or, not⟩ =>
    ⟨bind, types, properties, id, ofPatterns or, ofPatterns not⟩

def ofPatterns : List NodePattern → List WireNodePattern
  | [] => []
  | p :: ps => ofPattern p :: ofPatterns ps

end

mutual

def intoPattern : WireNodePattern → NodePattern
  | ⟨bind, types, properties, id, or, not⟩ =>
    ⟨bind, types, properties, id, intoPatterns or, intoPatterns not⟩

def intoPatterns : List WireNodePattern → List NodePattern
  | [] => []
  | w :: ws => intoPattern w :: intoPatterns ws

end

mutual

/-- How many patterns are nested in one another below a pattern. -/
def height : WireNodePattern → Nat
  | ⟨_, _, _, _, or, not⟩ => max (heights or) (heights not)

def heights : List WireNodePattern → Nat
  | [] => 0
  | w :: ws => max (height w + 1) (heights ws)

end

end WireNodePattern

structure WireEdgePattern where
  bind : Option String
  label : Option String
  properties : BTreeMap String PropertyValue
  «repeat» : Option (UInt64 × UInt64)

namespace WireEdgePattern

def ofPattern (p : EdgePattern) : WireEdgePattern :=
  ⟨p.bind, p.label, p.properties, p.repeat.map fun r => (r.min, r.max)⟩

def intoPattern (w : WireEdgePattern) : EdgePattern :=
  ⟨w.bind, w.label, w.properties, w.repeat.map fun r => ⟨r.1, r.2⟩⟩

end WireEdgePattern

inductive WireSortOrder where
  | ascending
  | descending
deriving DecidableEq, Repr

namespace WireSortOrder

def ofOrder : SortOrder → WireSortOrder
  | .ascending => .ascending
  | .descending => .descending

def intoOrder : WireSortOrder → SortOrder
  | .ascending => .ascending
  | .descending => .descending

/-- The snake-case names. -/
def name : WireSortOrder → String
  | .ascending => "ascending"
  | .descending => "descending"

end WireSortOrder

structure WireTraversalStep where
  edge : WireEdgePattern
  target : WireNodePattern
  outbound : Bool

namespace WireTraversalStep

def ofStep (s : TraversalStep) : WireTraversalStep :=
  ⟨.ofPattern s.edge, .ofPattern s.target, s.outbound⟩

def intoStep (w : WireTraversalStep) : TraversalStep :=
  ⟨w.edge.intoPattern, w.target.intoPattern, w.outbound⟩

end WireTraversalStep

structure WireTraversalPlan where
  seed : WireNodePattern
  steps : List WireTraversalStep
  returnColumns : List String
  order : List (String × WireSortOrder)
  skip : UInt64
  limit : Option UInt64

namespace WireTraversalPlan

def ofPlan (p : TraversalPlan) : WireTraversalPlan :=
  { seed := .ofPattern p.seed
    steps := p.steps.map .ofStep
    returnColumns := p.returnColumns
    order := p.order.map fun ko => (ko.1, .ofOrder ko.2)
    skip := p.skip
    limit := p.limit }

def intoPlan (w : WireTraversalPlan) : TraversalPlan :=
  { seed := w.seed.intoPattern
    steps := w.steps.map WireTraversalStep.intoStep
    returnColumns := w.returnColumns
    order := w.order.map fun ko => (ko.1, ko.2.intoOrder)
    skip := w.skip
    limit := w.limit }

end WireTraversalPlan

structure WireMatchRow where
  nodes : BTreeMap String NodeId
  edges : BTreeMap String EdgeId

namespace WireMatchRow

def ofRow (r : MatchRow) : WireMatchRow := ⟨r.nodes, r.edges⟩

def intoRow (w : WireMatchRow) : MatchRow :=
  { MatchRow.new with nodes := w.nodes, edges := w.edges }

end WireMatchRow

structure WireStoreDiff where
  addedNodes : List NodeId
  removedNodes : List NodeId
  addedEdges : List EdgeId
  removedEdges : List EdgeId

namespace WireStoreDiff

def ofDiff (d : StoreDiff) : WireStoreDiff :=
  ⟨d.addedNodes, d.removedNodes, d.addedEdges, d.removedEdges⟩

def intoDiff (w : WireStoreDiff) : StoreDiff :=
  ⟨w.addedNodes, w.removedNodes, w.addedEdges, w.removedEdges⟩

end WireStoreDiff

structure WireOntologyDelta where
  nodes : List Node
  edges : List Edge
  axioms : List Axiom

namespace WireOntologyDelta

def ofDelta (d : OntologyDelta) : WireOntologyDelta := ⟨d.nodes, d.edges, d.axioms⟩

def intoDelta (w : WireOntologyDelta) : OntologyDelta := ⟨w.nodes, w.edges, w.axioms⟩

end WireOntologyDelta

structure WireOntology where
  iri : Option Iri
  vocabulary : Vocabulary
  schema : Schema
  nodes : List Node
  edges : List Edge
  axioms : List Axiom

namespace WireOntology

def ofOntology (o : Ontology) : WireOntology :=
  ⟨o.iri, o.vocabulary, o.schema, o.nodes.vals, o.edges.vals, o.axioms.vals⟩

def intoOntology (w : WireOntology) : Ontology :=
  let out := { Ontology.empty with iri := w.iri, vocabulary := w.vocabulary, schema := w.schema }
  let out := w.nodes.foldl Ontology.upsertNode out
  let out := w.edges.foldl Ontology.upsertEdge out
  w.axioms.foldl Ontology.upsertAxiom out

end WireOntology

structure WireActivity where
  id : ProvenanceId
  label : String
  startedAt : DateTime
  endedAt : Option DateTime
  agent : Option AgentRef
  attributes : BTreeMap String JsonValue

namespace WireActivity

def ofActivity (a : Activity) : WireActivity :=
  ⟨a.id, a.label, a.startedAt, a.endedAt, a.agent, a.attributes⟩

def intoActivity (w : WireActivity) : Activity :=
  ⟨w.id, w.label, w.startedAt, w.endedAt, w.agent, w.attributes⟩

end WireActivity

structure WireProvEntity where
  id : ProvenanceId
  label : String
  digest : Option String
  attributes : BTreeMap String JsonValue

namespace WireProvEntity

def ofEntity (e : ProvEntity) : WireProvEntity := ⟨e.id, e.label, e.digest, e.attributes⟩

def intoEntity (w : WireProvEntity) : ProvEntity := ⟨w.id, w.label, w.digest, w.attributes⟩

end WireProvEntity

structure WireProvenanceLog where
  activities : List WireActivity
  entities : List WireProvEntity
  generations : List WasGeneratedBy
  derivations : List WasDerivedFrom
  attributions : List WasAttributedTo
  uses : List Used

namespace WireProvenanceLog

def ofLog (l : ProvenanceLog) : WireProvenanceLog :=
  { activities := l.activities.vals.map .ofActivity
    entities := l.entities.vals.map .ofEntity
    generations := l.generations
    derivations := l.derivations
    attributions := l.attributions
    uses := l.uses }

def intoLog (w : WireProvenanceLog) : ProvenanceLog :=
  let log := w.activities.foldl (fun log a => log.recordActivity a.intoActivity) ProvenanceLog.empty
  let log := w.entities.foldl (fun log e => log.recordEntity e.intoEntity) log
  { log with
    generations := w.generations
    derivations := w.derivations
    attributions := w.attributions
    uses := w.uses }

end WireProvenanceLog

mutual

/-- A node pattern comes back from the wire as it was. -/
@[simp] theorem WireNodePattern.into_of :
    ∀ p : NodePattern, (WireNodePattern.ofPattern p).intoPattern = p
  | ⟨bind, types, properties, id, or, not⟩ => by
    rw [ofPattern, intoPattern, intos_ofs or, intos_ofs not]

/-- So do negated patterns. -/
theorem WireNodePattern.intos_ofs : ∀ ps : List NodePattern, intoPatterns (ofPatterns ps) = ps
  | [] => rfl
  | p :: ps => by rw [ofPatterns, intoPatterns, into_of p, intos_ofs ps]

end

/-- An edge pattern comes back from the wire as it was. -/
@[simp] theorem WireEdgePattern.into_of (p : EdgePattern) : (ofPattern p).intoPattern = p := by
  cases p with
  | mk bind label properties bounds => cases bounds <;> rfl

@[simp] theorem WireSortOrder.into_of (o : SortOrder) : (ofOrder o).intoOrder = o := by
  cases o <;> rfl

/-- A step comes back from the wire as it was. -/
@[simp] theorem WireTraversalStep.into_of (s : TraversalStep) : (ofStep s).intoStep = s := by
  simp [ofStep, intoStep]

/-- A plan comes back from the wire as it was. -/
@[simp] theorem WireTraversalPlan.into_of (p : TraversalPlan) : (ofPlan p).intoPlan = p := by
  simp [ofPlan, intoPlan, Function.comp_def]

/-- A row comes back from the wire as it was. -/
@[simp] theorem WireMatchRow.into_of (r : MatchRow) : (ofRow r).intoRow = r := rfl

/-- An ontology keyed by its ids is rebuilt from its values. -/
theorem WireOntology.into_of {o : Ontology} (h : o.Keyed) : (ofOntology o).intoOntology = o := by
  rw [intoOntology, ofOntology, Ontology.foldl_upsertNode, Ontology.foldl_upsertEdge,
    Ontology.foldl_upsertAxiom]
  simp only [Ontology.empty, h.nodes.insertAll_vals, h.edges.insertAll_vals,
    h.axioms.insertAll_vals]

/-- A ledger keyed by its ids is rebuilt from its records. -/
theorem WireProvenanceLog.into_of {l : ProvenanceLog} (h : l.Keyed) : (ofLog l).intoLog = l := by
  have hactivities : ∀ (as : List Activity) (log : ProvenanceLog),
      (as.map WireActivity.ofActivity).foldl (fun l a => l.recordActivity a.intoActivity) log =
        as.foldl ProvenanceLog.recordActivity log := fun as log => List.foldl_map
  have hentities : ∀ (es : List ProvEntity) (log : ProvenanceLog),
      (es.map WireProvEntity.ofEntity).foldl (fun l e => l.recordEntity e.intoEntity) log =
        es.foldl ProvenanceLog.recordEntity log := fun es log => List.foldl_map
  rw [intoLog, ofLog, hactivities, hentities, foldl_recordActivity,
    foldl_recordEntity]
  simp only [ProvenanceLog.empty, h.activities.insertAll_vals, h.entities.insertAll_vals]

end Remote

end AtomrOntology
