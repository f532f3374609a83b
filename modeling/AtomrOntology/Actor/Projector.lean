import AtomrOntology.Actor.Source
import AtomrOntology.Store.Mem

/-!
# The projector

A projection strategy turns each batch into a delta; the projector reconciles the delta
with the nodes the store has and commits it with an activity of its own.
-/

namespace AtomrOntology

/-- How a projection mints IRIs for actor and event nodes. -/
inductive IriMintingStrategy where
  | pathBased (base : Iri)
  | contentAddressed
  | uuid
deriving DecidableEq, Repr

/-- How an existing node reacts to a new write at the same id. -/
inductive ConflictResolution where
  | lastWriteWins
  | merge
  | skipExisting
deriving DecidableEq, Repr

/-- The labels of a node, and those of another that it lacks. -/
def unionTypes (types incoming : List String) : List String :=
  types ++ incoming.filter (· ∉ types)

/-- Combine an incoming node with an existing one; nothing if the write is skipped. -/
def ConflictResolution.reconcile (conflict : ConflictResolution) (existing : Option Node)
    (incoming : Node) : Option Node :=
  match conflict, existing with
  | .lastWriteWins, _ => some incoming
  | .skipExisting, some _ => none
  | .skipExisting, none => some incoming
  | .merge, none => some incoming
  | .merge, some prev =>
    some { prev with
      types := unionTypes prev.types incoming.types
      properties := prev.properties.insertMany incoming.properties.toList
      iri := incoming.iri.orElse fun _ => prev.iri }

/-- How the projector treats the destination schema. -/
inductive SchemaStrategy where
  | fixedSchema (schema : Schema)
  | inducedSchema
  | hybrid (schema : Schema)

/-- What a fixed schema does not declare. -/
inductive SchemaViolation where
  | nodeType (name : String)
  | edgeLabel (name : String)
deriving DecidableEq, Repr

/-- Errors raised by projections. -/
inductive ProjectionError where
  | iri (e : IriError)
  | schemaViolation (what : SchemaViolation)
  | other (message : String)
deriving DecidableEq, Repr

/-- Reject types and labels that a fixed schema does not declare. -/
def enforceStrictSchema (delta : OntologyDelta) : SchemaStrategy → Except ProjectionError Unit
  | .fixedSchema schema =>
    match delta.nodes.flatMap Node.types |>.find? fun ty => !schema.nodeTypes.contains ty with
    | some ty => .error (.schemaViolation (.nodeType ty))
    | none =>
      match delta.edges.map Edge.label |>.find? fun l => !schema.edgeTypes.contains l with
      | some l => .error (.schemaViolation (.edgeLabel l))
      | none => .ok ()
  | _ => .ok ()

/-- What is global to a projection step. -/
structure ProjectionCtx where
  iri : IriMintingStrategy
  conflict : ConflictResolution
  schema : SchemaStrategy
  sourceLabel : String

/-- A context for running the model. -/
def ProjectionCtx.sample : ProjectionCtx :=
  ⟨.contentAddressed, .lastWriteWins, .inducedSchema, "sample"⟩

/-- A projection turns a batch into a delta without looking at the store. -/
structure ProjectionStrategy where
  label : String
  project : ActorBatch → ProjectionCtx → Except ProjectionError OntologyDelta

/-- Reconcile a delta with the nodes of the store. -/
def reconcileDelta (raw : OntologyDelta) (store : MemStore) (conflict : ConflictResolution) :
    OntologyDelta :=
  match conflict with
  | .lastWriteWins => raw
  | _ => { raw with
      nodes := raw.nodes.filterMap fun n => conflict.reconcile store.ontology.nodes[n.id]? n }

/-- The id and the times an activity is given. -/
structure Stamp where
  id : ProvenanceId
  startedAt : DateTime
  endedAt : DateTime

/-- Summary of a run. -/
structure ProjectorReport where
  batches : Nat
  nodesWritten : Nat
  edgesWritten : Nat
  activitiesRecorded : Nat
deriving DecidableEq, Repr

/-- A projection with its policies and the agent its activities name. -/
structure Projector where
  projection : ProjectionStrategy
  ctx : ProjectionCtx
  agent : AgentRef

namespace Projector

variable (p : Projector)

/-- The activity of a batch. -/
def activity (batch : ActorBatch) (stamp : Stamp) : Activity :=
  (((((Activity.started ("actor-projection:" ++ p.projection.label ++ ":" ++
      batch.origin.getD "anon") stamp.id stamp.startedAt).by p.agent).withAttribute
    "projection" ⟨.str p.projection.label, rfl⟩).withAttribute
    "source" ⟨.str p.ctx.sourceLabel, rfl⟩).withAttribute
    "cursor_version" ⟨Codec.u64.ser batch.cursor.version, rfl⟩).finish stamp.endedAt

/-- The delta of a batch as it is committed. -/
def delta (store : MemStore) (batch : ActorBatch) : Except ProjectionError OntologyDelta := do
  let raw ← p.projection.project batch p.ctx
  enforceStrictSchema raw p.ctx.schema
  return reconcileDelta raw store p.ctx.conflict

/-- Commit the batches that a channel delivers, until one fails. -/
def run (store : MemStore) (report : ProjectorReport) :
    List (ActorBatch × Stamp) → Except ProjectionError ProjectorReport × MemStore
  | [] => (.ok report, store)
  | (batch, stamp) :: rest =>
    if batch.isEmpty then run store report rest
    else
      match p.delta store batch with
      | .error e => (.error e, store)
      | .ok delta =>
        if delta.nodes.isEmpty && delta.edges.isEmpty && delta.axioms.isEmpty then
          run store report rest
        else
          run (store.commitWithProvenance delta (p.activity batch stamp))
            { batches := report.batches + 1
              nodesWritten := report.nodesWritten + delta.nodes.length
              edgesWritten := report.edgesWritten + delta.edges.length
              activitiesRecorded := report.activitiesRecorded + 1 }
            rest

end Projector

end AtomrOntology
