import AtomrOntology.Provenance.Log

/-!
# The wire form of a snapshot

Ids become hexadecimal strings and id-keyed maps become lists of their values. Each
wire struct has its derived codec, a conversion from the value and one back that can
fail on an id.
-/

namespace AtomrOntology

/-- Decode a hexadecimal string into the bytes of an id. -/
def decodeId (s : String) : Except IdError Bytes32 :=
  match Hex.decode s with
  | .error e => .error (.invalidHex e)
  | .ok raw =>
    match Bytes32.ofList? raw with
    | some b => .ok b
    | none => .error (.wrongLength raw.length)

/-- Decoding an encoded id restores it. -/
@[simp] theorem decodeId_toHex {kind : IdKind} (id : Id kind) :
    decodeId id.toHex = .ok id.bytes := by
  simp only [decodeId, Id.toHex, Hex.decode_encode, Bytes32.ofList?_toList]

structure NodeWire where
  id : String
  iri : Option Iri
  types : List String
  properties : BTreeMap String PropertyValue

structure EdgeWire where
  id : String
  label : String
  source : String
  target : String
  properties : BTreeMap String PropertyValue

structure AxiomWire where
  id : AxiomId
  kind : AxiomKind
  provenance : Option String

namespace NodeWire

def ofNode (n : Node) : NodeWire := ⟨n.id.toHex, n.iri, n.types, n.properties⟩

def intoNode (w : NodeWire) : Except IdError Node := do
  return { id := ⟨← decodeId w.id⟩, iri := w.iri, types := w.types, properties := w.properties }

end NodeWire

namespace EdgeWire

def ofEdge (e : Edge) : EdgeWire :=
  ⟨e.id.toHex, e.label, e.source.toHex, e.target.toHex, e.properties⟩

def intoEdge (w : EdgeWire) : Except IdError Edge := do
  return { id := ⟨← decodeId w.id⟩, label := w.label, source := ⟨← decodeId w.source⟩,
           target := ⟨← decodeId w.target⟩, properties := w.properties }

end EdgeWire

namespace AxiomWire

def ofAxiom (a : Axiom) : AxiomWire := ⟨a.id, a.kind, a.provenance.map Id.toHex⟩

def intoAxiom (w : AxiomWire) : Except IdError Axiom := do
  let provenance ← match w.provenance with
    | some s => do pure (some ⟨← decodeId s⟩)
    | none => pure none
  return { id := w.id, kind := w.kind, provenance }

end AxiomWire

structure ActivityWire where
  id : String
  label : String
  startedAt : DateTime
  endedAt : Option DateTime
  agent : Option AgentRef
  attributes : BTreeMap String JsonValue

structure ProvEntityWire where
  id : String
  label : String
  digest : Option String
  attributes : BTreeMap String JsonValue

/-- The wire form of a record between two ids. -/
structure LinkWire where
  first : String
  second : String

abbrev WasGeneratedByWire := LinkWire
abbrev WasDerivedFromWire := LinkWire
abbrev UsedWire := LinkWire

namespace ActivityWire

def ofActivity (a : Activity) : ActivityWire :=
  ⟨a.id.toHex, a.label, a.startedAt, a.endedAt, a.agent, a.attributes⟩

def intoActivity (w : ActivityWire) : Except IdError Activity := do
  return { id := ⟨← decodeId w.id⟩, label := w.label, startedAt := w.startedAt,
           endedAt := w.endedAt, agent := w.agent, attributes := w.attributes }

end ActivityWire

namespace ProvEntityWire

def ofEntity (e : ProvEntity) : ProvEntityWire := ⟨e.id.toHex, e.label, e.digest, e.attributes⟩

def intoEntity (w : ProvEntityWire) : Except IdError ProvEntity := do
  return { id := ⟨← decodeId w.id⟩, label := w.label, digest := w.digest,
           attributes := w.attributes }

end ProvEntityWire

namespace LinkWire

/-- `WasGeneratedByWire` from its record. -/
def ofGeneration (g : WasGeneratedBy) : WasGeneratedByWire := ⟨g.entity.toHex, g.activity.toHex⟩

/-- `WasDerivedFromWire` from its record. -/
def ofDerivation (d : WasDerivedFrom) : WasDerivedFromWire := ⟨d.derived.toHex, d.source.toHex⟩

/-- `UsedWire` from its record. -/
def ofUse (u : Used) : UsedWire := ⟨u.activity.toHex, u.entity.toHex⟩

def ids (w : LinkWire) : Except IdError (ProvenanceId × ProvenanceId) := do
  return (⟨← decodeId w.first⟩, ⟨← decodeId w.second⟩)

/-- The derived codec of a record of two ids with the given field names. -/
def codec (first second : String) (h : first ≠ second) : Codec LinkWire :=
  (Codec.record (.both (.required first .string) (.required second .string) (by simpa using h))).iso
    { toFun w := (w.first, w.second)
      invFun x := ⟨x.1, x.2⟩ }

end LinkWire

structure OntologyWire where
  iri : Option Iri
  vocabulary : Vocabulary
  schema : Schema
  nodes : List NodeWire
  edges : List EdgeWire
  axioms : List AxiomWire

structure ProvenanceLogWire where
  activities : List ActivityWire
  entities : List ProvEntityWire
  generations : List WasGeneratedByWire
  derivations : List WasDerivedFromWire
  attributions : List WasAttributedTo
  uses : List UsedWire

/-- A single persisted snapshot of a store's state. -/
structure Snapshot where
  ontology : Ontology
  provenance : ProvenanceLog
  version : UInt64

structure SnapshotWire where
  ontology : OntologyWire
  provenance : ProvenanceLogWire
  version : UInt64

namespace OntologyWire

def ofOntology (o : Ontology) : OntologyWire :=
  { iri := o.iri
    vocabulary := o.vocabulary
    schema := o.schema
    nodes := o.nodes.vals.map NodeWire.ofNode
    edges := o.edges.vals.map EdgeWire.ofEdge
    axioms := o.axioms.vals.map AxiomWire.ofAxiom }

def intoOntology (w : OntologyWire) : Except IdError Ontology := do
  let o : Ontology :=
    { Ontology.empty with iri := w.iri, vocabulary := w.vocabulary, schema := w.schema }
  let o ← w.nodes.foldlM (fun o n => do return o.upsertNode (← n.intoNode)) o
  let o ← w.edges.foldlM (fun o e => do return o.upsertEdge (← e.intoEdge)) o
  w.axioms.foldlM (fun o a => do return o.upsertAxiom (← a.intoAxiom)) o

end OntologyWire

namespace ProvenanceLogWire

def ofLog (l : ProvenanceLog) : ProvenanceLogWire :=
  { activities := l.activities.vals.map ActivityWire.ofActivity
    entities := l.entities.vals.map ProvEntityWire.ofEntity
    generations := l.generations.map LinkWire.ofGeneration
    derivations := l.derivations.map LinkWire.ofDerivation
    attributions := l.attributions
    uses := l.uses.map LinkWire.ofUse }

def intoLog (w : ProvenanceLogWire) : Except IdError ProvenanceLog := do
  let l := ProvenanceLog.empty
  let l ← w.activities.foldlM (fun l a => do return l.recordActivity (← a.intoActivity)) l
  let l ← w.entities.foldlM (fun l e => do return l.recordEntity (← e.intoEntity)) l
  let l ← w.generations.foldlM (fun l g => do
    let ids ← g.ids
    return l.generated ids.1 ids.2) l
  let l ← w.derivations.foldlM (fun l d => do
    let ids ← d.ids
    return l.derived ids.1 ids.2) l
  let l ← w.uses.foldlM (fun l u => do
    let ids ← u.ids
    return l.used ids.1 ids.2) l
  return { l with attributions := w.attributions }

end ProvenanceLogWire

namespace SnapshotWire

def ofSnapshot (s : Snapshot) : SnapshotWire :=
  ⟨.ofOntology s.ontology, .ofLog s.provenance, s.version⟩

def intoSnapshot (w : SnapshotWire) : Except IdError Snapshot := do
  return { ontology := ← w.ontology.intoOntology, provenance := ← w.provenance.intoLog,
           version := w.version }

end SnapshotWire

section Codecs

variable [SerdeJson] [Chrono]

def NodeWire.codec : Codec NodeWire :=
  (Codec.record (Node.fields .string)).iso
    { toFun w := (w.id, w.iri, w.types, w.properties)
      invFun x := ⟨x.1, x.2.1, x.2.2.1, x.2.2.2⟩ }

def EdgeWire.codec : Codec EdgeWire :=
  (Codec.record (Edge.fields .string .string)).iso
    { toFun w := (w.id, w.label, w.source, w.target, w.properties)
      invFun x := ⟨x.1, x.2.1, x.2.2.1, x.2.2.2.1, x.2.2.2.2⟩ }

def AxiomWire.codec : Codec AxiomWire :=
  (Codec.record (Axiom.fields .string)).iso
    { toFun w := (w.id, w.kind, w.provenance)
      invFun x := ⟨x.1, x.2.1, x.2.2⟩ }

def ActivityWire.codec : Codec ActivityWire :=
  (Codec.record <| .both (.required "id" .string) <| .both (.required "label" .string) <|
    .both (.required "started_at" .dateTime) <| .both (.optional "ended_at" .dateTime) <|
    .both (.optional "agent" AgentRef.codec) (.required "attributes" (.map .value))).iso
    { toFun w := (w.id, w.label, w.startedAt, w.endedAt, w.agent, w.attributes)
      invFun x := ⟨x.1, x.2.1, x.2.2.1, x.2.2.2.1, x.2.2.2.2.1, x.2.2.2.2.2⟩ }

def ProvEntityWire.codec : Codec ProvEntityWire :=
  (Codec.record <| .both (.required "id" .string) <| .both (.required "label" .string) <|
    .both (.optional "digest" .string) (.required "attributes" (.map .value))).iso
    { toFun w := (w.id, w.label, w.digest, w.attributes)
      invFun x := ⟨x.1, x.2.1, x.2.2.1, x.2.2.2⟩ }

def OntologyWire.codec : Codec OntologyWire :=
  (Codec.record <| .both (.optional "iri" .iri) <|
    .both (.required "vocabulary" Vocabulary.codec) <|
    .both (.required "schema" Schema.codec) <| .both (.required "nodes" (.list NodeWire.codec)) <|
    .both (.required "edges" (.list EdgeWire.codec))
      (.required "axioms" (.list AxiomWire.codec))).iso
    { toFun w := (w.iri, w.vocabulary, w.schema, w.nodes, w.edges, w.axioms)
      invFun x := ⟨x.1, x.2.1, x.2.2.1, x.2.2.2.1, x.2.2.2.2.1, x.2.2.2.2.2⟩ }

def ProvenanceLogWire.codec : Codec ProvenanceLogWire :=
  (Codec.record <| .both (.required "activities" (.list ActivityWire.codec)) <|
    .both (.required "entities" (.list ProvEntityWire.codec)) <|
    .both (.required "generations" (.list (LinkWire.codec "entity" "activity" (by decide)))) <|
    .both (.required "derivations" (.list (LinkWire.codec "derived" "source" (by decide)))) <|
    .both (.required "attributions" (.list WasAttributedTo.codec))
      (.required "uses" (.list (LinkWire.codec "activity" "entity" (by decide))))).iso
    { toFun w := (w.activities, w.entities, w.generations, w.derivations, w.attributions, w.uses)
      invFun x := ⟨x.1, x.2.1, x.2.2.1, x.2.2.2.1, x.2.2.2.2.1, x.2.2.2.2.2⟩ }

def SnapshotWire.codec : Codec SnapshotWire :=
  (Codec.record <| .both (.required "ontology" OntologyWire.codec) <|
    .both (.required "provenance" ProvenanceLogWire.codec) (.required "version" .u64)).iso
    { toFun w := (w.ontology, w.provenance, w.version)
      invFun x := ⟨x.1, x.2.1, x.2.2⟩ }

/-- `Serialize` and `Deserialize` of a snapshot route through its wire form. -/
def Snapshot.codec : Codec Snapshot :=
  SnapshotWire.codec.refine SnapshotWire.ofSnapshot SnapshotWire.intoSnapshot

end Codecs

end AtomrOntology
