import AtomrOntology.Logic.Lockstep
import AtomrOntology.Persist.Atomicity
import AtomrOntology.Persist.Queries
import AtomrOntology.Store.Mem

/-!
# What callers see of a store

The calls of a store and their answers, for the store in memory and for the persistent one.
While no save fails, the persistent store answers as the one in memory.
-/

namespace AtomrOntology

/-- A call of a store. -/
inductive StoreCall where
  | upsertNode (node : Node)
  | upsertEdge (edge : Edge)
  | upsertAxiom (ontologyAxiom : Axiom)
  | node (id : NodeId)
  | edge (id : EdgeId)
  | matchPattern (pattern : NodePattern)
  | traverse (plan : TraversalPlan)
  | snapshot
  | diff (other : Ontology)
  | commitWithProvenance (delta : OntologyDelta) (activity : Activity)
  | provenance

/-- What a call that succeeds returns. -/
inductive StoreAnswer where
  | nodeId (id : NodeId)
  | edgeId (id : EdgeId)
  | done
  | node (node : Option Node)
  | edge (edge : Option Edge)
  | rows (rows : List MatchRow)
  | ontology (ontology : Ontology)
  | diff (diff : StoreDiff)
  | provenanceId (id : ProvenanceId)
  | provenance (log : ProvenanceLog)

/-- What an operation returns, as the answer to a call. -/
def answered {α σ : Type} (convert : α → StoreAnswer) (outcome : Except StoreError α × σ) :
    Except StoreError StoreAnswer × σ :=
  (outcome.1.map convert, outcome.2)

/-- A call runs the operation it names. -/
def OntologyStore.call {σ : Type} (store : OntologyStore σ) (s : σ) :
    StoreCall → Except StoreError StoreAnswer × σ
  | .upsertNode node => answered .nodeId (store.upsertNode node s)
  | .upsertEdge edge => answered .edgeId (store.upsertEdge edge s)
  | .upsertAxiom a => answered (fun _ => .done) (store.upsertAxiom a s)
  | .node id => answered .node (store.node id s)
  | .edge id => answered .edge (store.edge id s)
  | .matchPattern pattern => answered .rows (store.matchPattern pattern s)
  | .traverse plan => answered .rows (store.traverse plan s)
  | .snapshot => answered .ontology (store.snapshot s)
  | .diff other => answered .diff (store.diff other s)
  | .commitWithProvenance delta activity =>
    answered .provenanceId (store.commitWithProvenance delta activity s)
  | .provenance => answered .provenance (store.provenance s)

/-- `OntologyStore for MemStore`. -/
def MemStore.call (s : MemStore) : StoreCall → Except StoreError StoreAnswer × MemStore
  | .upsertNode node => (.ok (.nodeId node.id), { s with ontology := s.ontology.upsertNode node })
  | .upsertEdge edge => (.ok (.edgeId edge.id), { s with ontology := s.ontology.upsertEdge edge })
  | .upsertAxiom a => (.ok .done, { s with ontology := s.ontology.upsertAxiom a })
  | .node id => (.ok (.node s.ontology.nodes[id]?), s)
  | .edge id => (.ok (.edge s.ontology.edges[id]?), s)
  | .matchPattern pattern => (.ok (.rows (AtomrOntology.matchPattern s.ontology pattern)), s)
  | .traverse plan => (.ok (.rows (AtomrOntology.traverse s.ontology plan)), s)
  | .snapshot => (.ok (.ontology s.ontology), s)
  | .diff other => (.ok (.diff (s.ontology.diff other)), s)
  | .commitWithProvenance delta activity =>
    (.ok (.provenanceId activity.id), s.commitWithProvenance delta activity)
  | .provenance => (.ok (.provenance s.provenance), s)

namespace FallibleCheckpointer

variable (c : FallibleCheckpointer)

/-- `OntologyStore for PersistentStore`: a call changes the state in memory, and a commit the
medium as well. -/
def call (s : PersistentState × c.Medium) :
    StoreCall → Except StoreError StoreAnswer × PersistentState × c.Medium
  | .upsertNode node =>
      (.ok (.nodeId node.id), { s.1 with ontology := s.1.ontology.upsertNode node }, s.2)
  | .upsertEdge edge =>
    (.ok (.edgeId edge.id), { s.1 with ontology := s.1.ontology.upsertEdge edge }, s.2)
  | .upsertAxiom a => (.ok .done, { s.1 with ontology := s.1.ontology.upsertAxiom a }, s.2)
  | .node id => (.ok (.node s.1.ontology.nodes[id]?), s)
  | .edge id => (.ok (.edge s.1.ontology.edges[id]?), s)
  | .matchPattern pattern => (.ok (.rows (Persist.matchPattern s.1.ontology pattern)), s)
  | .traverse plan => (.ok (.rows (Persist.traverse s.1.ontology plan)), s)
  | .snapshot => (.ok (.ontology s.1.ontology), s)
  | .diff other => (.ok (.diff (s.1.ontology.diff other)), s)
  | .commitWithProvenance delta activity =>
    let result := c.commitWithProvenance s.1 s.2 delta activity
    (result.1.map .provenanceId, result.2)
  | .provenance => (.ok (.provenance s.1.provenance), s)

/-- The store in memory holds what the persistent one holds. -/
def Holds (s : PersistentState × c.Medium) (m : MemStore) : Prop :=
  s.1.ontology = m.ontology ∧ s.1.provenance = m.provenance

/-- A commit whose save does not fail returns the id of its activity. -/
theorem commitWithProvenance_of_saves (hsaves : ∀ snapshot medium,
    (c.save snapshot medium).1 = .ok ())
    (state : PersistentState) (medium : c.Medium) (delta : OntologyDelta) (activity : Activity) :
    ∃ medium', c.commitWithProvenance state medium delta activity =
      (.ok activity.id, state.commit delta activity, medium') := by
  have hsaved := hsaves (state.commit delta activity).snapshot medium
  unfold commitWithProvenance
  rcases hsave : c.save (state.commit delta activity).snapshot medium with ⟨result, medium'⟩
  rw [hsave] at hsaved
  obtain rfl : result = .ok () := hsaved
  exact ⟨medium', by simp only [hsave]⟩

/-- While no save fails, both stores answer every call alike. -/
theorem lockstep_call (hsaves : ∀ snapshot medium, (c.save snapshot medium).1 = .ok ()) :
    Lockstep c.Holds c.call MemStore.call := by
  intro s m k hs
  obtain ⟨⟨ontology, provenance, version⟩, medium⟩ := s
  obtain ⟨_, _⟩ := m
  obtain ⟨rfl, rfl⟩ := hs
  cases k with
  | matchPattern pattern => exact ⟨by rw [call, Persist.matchPattern_eq]; rfl, rfl, rfl⟩
  | traverse plan => exact ⟨by rw [call, Persist.traverse_eq]; rfl, rfl, rfl⟩
  | commitWithProvenance delta activity =>
    have hcommit :=
      c.commitWithProvenance_of_saves hsaves ⟨ontology, provenance, version⟩ medium delta
      activity
    obtain ⟨medium', hcommit⟩ := hcommit
    have hcall :
      c.call (⟨ontology, provenance, version⟩, medium) (.commitWithProvenance delta activity) =
        (.ok (.provenanceId activity.id), .commit ⟨ontology, provenance, version⟩ delta activity,
          medium') := by
      rw [call, hcommit]
      rfl
    rw [hcall]
    exact ⟨rfl, rfl, rfl⟩
  | _ => exact ⟨rfl, rfl, rfl⟩

/-- A persistent store that starts empty and whose saves do not fail gives the answers of a
store in memory. -/
theorem answers_call (hsaves : ∀ snapshot medium, (c.save snapshot medium).1 = .ok ())
    (medium : c.Medium) (calls : List StoreCall) :
    replies c.call (.empty, medium) calls = replies MemStore.call .empty calls :=
  (c.lockstep_call hsaves).replies_eq ⟨rfl, rfl⟩ calls

/-- The provider that keeps snapshots in memory never fails. -/
theorem answers_memCheckpointer : replies (ofCheckpointer memCheckpointer).call (.empty, none)
    [.upsertNode ⟨.filled 1, none, ["Organization"], ∅⟩, .matchPattern .any] =
      replies MemStore.call .empty
        [.upsertNode ⟨.filled 1, none, ["Organization"], ∅⟩, .matchPattern .any] :=
  (ofCheckpointer memCheckpointer).answers_call (fun _ _ => rfl) none _

end FallibleCheckpointer

end AtomrOntology
