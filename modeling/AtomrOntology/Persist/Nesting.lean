import AtomrOntology.Core.Nesting
import AtomrOntology.Persist.Reload

/-!
# How deeply a written snapshot nests

Only free JSON nests without bound: a JSON property value stands six levels deep in the
document of a snapshot, an attribute of the ledger five levels.
-/

namespace AtomrOntology

variable {n : Nat}

namespace Codec

/-- Bytes are written as an array of numbers, which takes one level. -/
@[simp] theorem fits_bytes {bs : List UInt8} : bytes.Fits n bs ↔ 0 < n := by
  simp [bytes, u8]

/-- Ids are written as arrays. -/
@[simp] theorem fits_id {kind : IdKind} {x : Id kind} : id.Fits n x ↔ 0 < n :=
  fits_list.trans (by simp [u8])

@[simp] theorem fits_u32 (x : UInt32) : u32.Fits n x := fits_ints x

@[simp] theorem fits_u64 (x : UInt64) : u64.Fits n x := fits_ints x

@[simp] theorem fits_i64 (x : Int64) : i64.Fits n x := fits_ints x

@[simp] theorem fits_iri (x : Iri) : iri.Fits n x := fits_strings x

@[simp] theorem fits_dateTime [Chrono] (x : DateTime) : dateTime.Fits n x := fits_strings x

/-- Variants without contents are texts. -/
@[simp] theorem fits_variants {α : Type} {name : α → String} {all : List α} (x : α) :
    (variants name all).Fits n x := fits_strings x

end Codec

/-- Property declarations nest twice at most. -/
@[simp] theorem PropertyType.fits_codec (t : PropertyType) (h : 2 ≤ n) :
    PropertyType.codec.Fits n t := by
  simp [PropertyType.codec, Datatype.codec, Cardinality.codec]
  omega

/-- Vocabularies nest twice at most. -/
@[simp] theorem Vocabulary.fits_codec (v : Vocabulary) (h : 2 ≤ n) :
    Vocabulary.codec.Fits n v := by
  simp [Vocabulary.codec]
  omega

/-- Schemas nest six times at most. -/
@[simp] theorem Schema.fits_codec (s : Schema) (h : 6 ≤ n) : Schema.codec.Fits n s := by
  have hproperty : ∀ t : PropertyType, PropertyType.codec.Fits (n - 1 - 1 - 1 - 1) t :=
    fun t => t.fits_codec (by omega)
  have hroom : 1 < n - 1 ∧ 1 < n - 1 - 1 := by omega
  simp [Schema.codec, NodeType.codec, EdgeType.codec, Cardinality.codec, hproperty, hroom]
  omega

/-- Kinds of axioms are records of texts. -/
@[simp] theorem AxiomKind.fits_codec (k : AxiomKind) (h : 1 ≤ n) : AxiomKind.codec.Fits n k := by
  rw [AxiomKind.codec, Codec.fits_record]
  refine ⟨h, ?_⟩
  cases k <;> simp [Fields.Fits, AxiomKind.fields, Json.depth]

/-- Agents are records of texts. -/
@[simp] theorem AgentRef.fits_codec (a : AgentRef) (h : 1 ≤ n) : AgentRef.codec.Fits n a := by
  simp [AgentRef.codec, AgentKind.codec]
  omega

/-- Links are records of hexadecimal texts. -/
@[simp] theorem LinkWire.fits_codec {first second : String} {hn : first ≠ second}
    (w : LinkWire) (h : 1 ≤ n) : (LinkWire.codec first second hn).Fits n w := by
  simp [LinkWire.codec]
  omega

/-- Attributions hold an agent. -/
@[simp] theorem WasAttributedTo.fits_codec (a : WasAttributedTo) (h : 2 ≤ n) :
    WasAttributedTo.codec.Fits n a := by
  have hagent : ∀ r : AgentRef, AgentRef.codec.Fits (n - 1) r := fun r => r.fits_codec (by omega)
  simp [WasAttributedTo.codec, hagent]
  omega

/-- How deeply the JSON part of a property value nests. -/
def PropertyValue.nesting : PropertyValue → Nat
  | .json v => v.val.depth
  | _ => 0

/-- The JSON values of a snapshot leave room for the levels the document has of its own. -/
structure Snapshot.Shallow (s : Snapshot) : Prop where
  nodes : ∀ n ∈ s.ontology.nodes.vals, ∀ v ∈ n.properties.vals, v.nesting ≤ 121
  edges : ∀ e ∈ s.ontology.edges.vals, ∀ v ∈ e.properties.vals, v.nesting ≤ 121
  activities : ∀ a ∈ s.provenance.activities.vals, ∀ v ∈ a.attributes.vals, v.val.depth ≤ 122
  entities : ∀ e ∈ s.provenance.entities.vals, ∀ v ∈ e.attributes.vals, v.val.depth ≤ 122

section

variable [SerdeJson] [Chrono]

/-- A property value nests as deeply as its contents, and once more. -/
theorem PropertyValue.fits_codec {v : PropertyValue} (h : 3 ≤ n) :
    PropertyValue.codec.Fits n v ↔ v.nesting + 1 ≤ n := by
  have hparts : PropertyValue.fields.Fits (n - 1) v ↔ v.nesting ≤ n - 1 := by
    cases v with
    | null => simp [Fields.Fits, PropertyValue.fields, PropertyValue.nesting, Json.depth]
    | bytes b =>
      simp [Fields.Fits, PropertyValue.fields, PropertyValue.nesting, Json.depth,
        Codec.depth_ser_le]
      omega
    | _ => simp [Fields.Fits, PropertyValue.fields, PropertyValue.nesting, Json.depth,
        Codec.depth_ser_le]
  rw [PropertyValue.codec, Codec.fits_record, hparts]
  omega

/-- A snapshot can be read within the limit exactly when its JSON values are shallow. -/
theorem Snapshot.fits_codec {s : Snapshot} : Snapshot.codec.Fits 127 s ↔ s.Shallow := by
  have hvalue : ∀ v : PropertyValue, PropertyValue.codec.Fits 122 v ↔ v.nesting ≤ 121 := by
    intro v
    rw [PropertyValue.fits_codec (by omega)]
    omega
  have hschema : Schema.codec.Fits 125 s.ontology.schema := Schema.fits_codec _ (by omega)
  simp [-Subtype.forall, Snapshot.codec, SnapshotWire.codec, SnapshotWire.ofSnapshot,
    OntologyWire.codec,
    OntologyWire.ofOntology, ProvenanceLogWire.codec, ProvenanceLogWire.ofLog, NodeWire.codec,
    Node.fields, NodeWire.ofNode, EdgeWire.codec, Edge.fields, EdgeWire.ofEdge, AxiomWire.codec,
    Axiom.fields, AxiomWire.ofAxiom, ActivityWire.codec, ActivityWire.ofActivity,
    ProvEntityWire.codec, ProvEntityWire.ofEntity,
    hvalue, hschema]
  constructor
  · intro h
    obtain ⟨⟨hn, he⟩, ha, hp⟩ := h
    exact ⟨hn, he, ha, hp⟩
  · intro h
    exact ⟨⟨h.nodes, h.edges⟩, h.activities, h.entities⟩

end

end AtomrOntology
