import AtomrOntology.Provenance.Log
import AtomrOntology.Store.Pattern

/-!
# The repository surface

Errors, deltas and diffs of an ontology store, its operations, and what committing a delta
does to the state every store keeps: an ontology and its provenance ledger.
-/

namespace AtomrOntology

/-- Errors raised by store implementations. -/
inductive StoreError where
  | ontology (message : String)
  | io (message : String)
  | notFound (message : String)
deriving DecidableEq, Repr

/-- The display form. -/
def StoreError.text : StoreError → String
  | .ontology message => message
  | .io message => "io error: " ++ message
  | .notFound message => "not found: " ++ message

/-- A delta to be applied atomically with provenance. -/
structure OntologyDelta where
  nodes : List Node
  edges : List Edge
  axioms : List Axiom

/-- Coarse diff of two ontology snapshots. -/
structure StoreDiff where
  addedNodes : List NodeId
  removedNodes : List NodeId
  addedEdges : List EdgeId
  removedEdges : List EdgeId
deriving DecidableEq

/-- Async surface over an ontology repository, each operation a step on the state of the store. -/
structure OntologyStore (σ : Type) where
  upsertNode : Node → σ → Except StoreError NodeId × σ
  upsertEdge : Edge → σ → Except StoreError EdgeId × σ
  upsertAxiom : Axiom → σ → Except StoreError Unit × σ
  node : NodeId → σ → Except StoreError (Option Node) × σ
  edge : EdgeId → σ → Except StoreError (Option Edge) × σ
  matchPattern : NodePattern → σ → Except StoreError (List MatchRow) × σ
  traverse : TraversalPlan → σ → Except StoreError (List MatchRow) × σ
  snapshot : σ → Except StoreError Ontology × σ
  diff : Ontology → σ → Except StoreError StoreDiff × σ
  commitWithProvenance : OntologyDelta → Activity → σ → Except StoreError ProvenanceId × σ
  provenance : σ → Except StoreError ProvenanceLog × σ

/-- Attach provenance to an axiom that has none. -/
def Axiom.withDefaultProvenance (a : Axiom) (p : ProvenanceId) : Axiom :=
  match a.provenance with
  | none => { a with provenance := some p }
  | some _ => a

@[simp] theorem Axiom.withDefaultProvenance_id (a : Axiom) (p : ProvenanceId) :
    (a.withDefaultProvenance p).id = a.id := by
  unfold Axiom.withDefaultProvenance
  split <;> rfl

/-- Upsert the nodes, edges and axioms of a delta. -/
def Ontology.applyDelta (o : Ontology) (delta : OntologyDelta) (p : ProvenanceId) : Ontology :=
  let o := delta.nodes.foldl Ontology.upsertNode o
  let o := delta.edges.foldl Ontology.upsertEdge o
  delta.axioms.foldl (fun o a => o.upsertAxiom (a.withDefaultProvenance p)) o

/-- Applying a delta inserts its entities under their ids. -/
theorem Ontology.applyDelta_eq (o : Ontology) (delta : OntologyDelta) (p : ProvenanceId) :
    o.applyDelta delta p =
      { o with
        nodes := BTreeMap.insertAll Node.id o.nodes delta.nodes
        edges := BTreeMap.insertAll Edge.id o.edges delta.edges
        axioms := BTreeMap.insertAll Axiom.id o.axioms
          (delta.axioms.map (·.withDefaultProvenance p)) } := by
  rw [applyDelta, foldl_upsertNode, foldl_upsertEdge, ← List.foldl_map, foldl_upsertAxiom]

theorem Ontology.applyDelta_nodes (o : Ontology) (delta : OntologyDelta) (p : ProvenanceId) :
    (o.applyDelta delta p).nodes = BTreeMap.insertAll Node.id o.nodes delta.nodes := by
  rw [applyDelta_eq]

theorem Ontology.applyDelta_edges (o : Ontology) (delta : OntologyDelta) (p : ProvenanceId) :
    (o.applyDelta delta p).edges = BTreeMap.insertAll Edge.id o.edges delta.edges := by
  rw [applyDelta_eq]

/-- What every upsert preserves, applying a delta preserves. -/
theorem Ontology.applyDelta_preserves {P : Ontology → Prop}
    (hnode : ∀ o n, P o → P (o.upsertNode n)) (hedge : ∀ o e, P o → P (o.upsertEdge e))
    (hbody : ∀ o a, P o → P (o.upsertAxiom a)) {o : Ontology} (h : P o)
    (delta : OntologyDelta) (p : ProvenanceId) : P (o.applyDelta delta p) := by
  have hnodes : P (delta.nodes.foldl Ontology.upsertNode o) :=
    List.foldlRecOn delta.nodes _ h fun o ho n _ => hnode o n ho
  have hedges : P (delta.edges.foldl Ontology.upsertEdge
      (delta.nodes.foldl Ontology.upsertNode o)) :=
    List.foldlRecOn delta.edges _ hnodes fun o ho e _ => hedge o e ho
  exact List.foldlRecOn delta.axioms _ hedges fun o ho a _ => hbody o _ ho

/-- Applying a delta keeps every entity under its own id. -/
theorem Ontology.Keyed.applyDelta {o : Ontology} (h : o.Keyed) (delta : OntologyDelta)
    (p : ProvenanceId) : (o.applyDelta delta p).Keyed :=
  applyDelta_preserves (fun _ n h => h.upsertNode n) (fun _ e h => h.upsertEdge e)
    (fun _ a h => h.upsertAxiom a) h delta p

/-- Applying a delta is a sequence of upserts. -/
theorem Ontology.Built.applyDelta {o : Ontology} (h : o.Built) (delta : OntologyDelta)
    (p : ProvenanceId) : (o.applyDelta delta p).Built :=
  applyDelta_preserves (fun _ n h => h.upsertNode n) (fun _ e h => h.upsertEdge e)
    (fun _ a h => h.upsertAxiom a) h delta p

/-- What lies between two key lists: the keys of the first that the second lacks. -/
def keysMinus {κ ν μ : Type} [Ord κ] [Std.TransOrd κ] (m : BTreeMap κ ν) (m' : BTreeMap κ μ) :
    List κ := m.keys.filter fun k => !m'.contains k

/-- Compare the ids of two ontologies. -/
def Ontology.diff (self other : Ontology) : StoreDiff :=
  { addedNodes := keysMinus self.nodes other.nodes
    removedNodes := keysMinus other.nodes self.nodes
    addedEdges := keysMinus self.edges other.edges
    removedEdges := keysMinus other.edges self.edges }

end AtomrOntology
