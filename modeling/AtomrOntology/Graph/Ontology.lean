import AtomrOntology.Graph.Axiom

/-!
# The ontology aggregate

A snapshot owns a schema, a vocabulary and the nodes, edges and axioms keyed by their
ids. Building one through the upserts keeps every entry under its own id. The derived
JSON form exists only while the three id-keyed maps are empty: a map whose keys are
byte sequences has no JSON form.
-/

namespace AtomrOntology

/-- In-memory snapshot of an ontology. -/
structure Ontology where
  iri : Option Iri
  vocabulary : Vocabulary
  schema : Schema
  nodes : BTreeMap NodeId Node
  edges : BTreeMap EdgeId Edge
  axioms : BTreeMap AxiomId Axiom

namespace Ontology

/-- The empty ontology. -/
def empty : Ontology := ⟨none, .empty, .empty, ∅, ∅, ∅⟩

/-- Insert or replace a node under its id. -/
def upsertNode (o : Ontology) (n : Node) : Ontology := { o with nodes := o.nodes.insert n.id n }

/-- Insert or replace an edge under its id. -/
def upsertEdge (o : Ontology) (e : Edge) : Ontology := { o with edges := o.edges.insert e.id e }

/-- Insert or replace an axiom under its id. -/
def upsertAxiom (o : Ontology) (a : Axiom) : Ontology :=
  { o with axioms := o.axioms.insert a.id a }

/-- Nodes are inserted under their ids, one after another. -/
theorem foldl_upsertNode (ns : List Node) (o : Ontology) :
    ns.foldl upsertNode o = { o with nodes := BTreeMap.insertAll Node.id o.nodes ns } := by
  induction ns generalizing o with
  | nil => rfl
  | cons n ns ih => exact ih (o.upsertNode n)

/-- So are edges. -/
theorem foldl_upsertEdge (es : List Edge) (o : Ontology) :
    es.foldl upsertEdge o = { o with edges := BTreeMap.insertAll Edge.id o.edges es } := by
  induction es generalizing o with
  | nil => rfl
  | cons e es ih => exact ih (o.upsertEdge e)

/-- So are axioms. -/
theorem foldl_upsertAxiom (as : List Axiom) (o : Ontology) :
    as.foldl upsertAxiom o = { o with axioms := BTreeMap.insertAll Axiom.id o.axioms as } := by
  induction as generalizing o with
  | nil => rfl
  | cons a as ih => exact ih (o.upsertAxiom a)

/-- Every entity is stored under its own id. -/
structure Keyed (o : Ontology) : Prop where
  nodes : o.nodes.KeyedBy Node.id
  edges : o.edges.KeyedBy Edge.id
  axioms : o.axioms.KeyedBy Axiom.id

theorem Keyed.empty : Keyed .empty := ⟨.empty _, .empty _, .empty _⟩

/-- A further node keeps an ontology keyed. -/
theorem Keyed.upsertNode {o : Ontology} (h : o.Keyed) (n : Node) : (o.upsertNode n).Keyed :=
  ⟨h.nodes.insert n, h.edges, h.axioms⟩

/-- So does an edge. -/
theorem Keyed.upsertEdge {o : Ontology} (h : o.Keyed) (e : Edge) : (o.upsertEdge e).Keyed :=
  ⟨h.nodes, h.edges.insert e, h.axioms⟩

/-- So does an axiom. -/
theorem Keyed.upsertAxiom {o : Ontology} (h : o.Keyed) (a : Axiom) : (o.upsertAxiom a).Keyed :=
  ⟨h.nodes, h.edges, h.axioms.insert a⟩

/-- What the upserts build from an ontology without entities. -/
inductive Built : Ontology → Prop
  | bare (iri : Option Iri) (vocabulary : Vocabulary) (schema : Schema) :
    Built ⟨iri, vocabulary, schema, ∅, ∅, ∅⟩
  | upsertNode {o : Ontology} (h : Built o) (n : Node) : Built (o.upsertNode n)
  | upsertEdge {o : Ontology} (h : Built o) (e : Edge) : Built (o.upsertEdge e)
  | upsertAxiom {o : Ontology} (h : Built o) (a : Axiom) : Built (o.upsertAxiom a)

/-- An ontology that was built call by call is keyed. -/
theorem Built.keyed {o : Ontology} (h : o.Built) : o.Keyed := by
  induction h with
  | bare iri vocabulary schema => exact ⟨.empty _, .empty _, .empty _⟩
  | upsertNode _ n ih => exact ih.upsertNode n
  | upsertEdge _ e ih => exact ih.upsertEdge e
  | upsertAxiom _ a ih => exact ih.upsertAxiom a

/-- Whether the ontology holds no node, edge or axiom. -/
def isBare (o : Ontology) : Bool := o.nodes.isEmpty && o.edges.isEmpty && o.axioms.isEmpty

/-- A map keyed by byte sequences can be serialized only if no key comes up. -/
def serIdMap {kind : IdKind} {α : Type} (m : BTreeMap (Id kind) α) : Option Json :=
  if m.isEmpty then some (.obj []) else none

/-- The derived `Serialize`, which fails on a non-empty id-keyed map. -/
def ser (o : Ontology) : Option Json := do
  let nodes ← serIdMap o.nodes
  let edges ← serIdMap o.edges
  let axioms ← serIdMap o.axioms
  return .obj [("iri", Codec.iri.option.ser o.iri),
    ("vocabulary", Vocabulary.codec.ser o.vocabulary),
    ("schema", Schema.codec.ser o.schema), ("nodes", nodes), ("edges", edges), ("axioms", axioms)]

/-- Exactly the ontologies without nodes, edges and axioms have a derived JSON form. -/
theorem ser_eq_none {o : Ontology} : o.ser = none ↔ ¬o.isBare := by
  unfold ser serIdMap isBare
  cases o.nodes.isEmpty <;> cases o.edges.isEmpty <;> cases o.axioms.isEmpty <;> simp

/-- What is serialized is bare, without entries to key. -/
theorem ser_eq_some {o : Ontology} {j : Json} (h : o.ser = some j) :
    o.isBare ∧ j = .obj [("iri", Codec.iri.option.ser o.iri),
      ("vocabulary", Vocabulary.codec.ser o.vocabulary), ("schema", Schema.codec.ser o.schema),
      ("nodes", .obj []), ("edges", .obj []), ("axioms", .obj [])] := by
  have hb : o.isBare := by
    by_contra hb
    rw [ser_eq_none.mpr hb] at h
    cases h
  refine ⟨hb, ?_⟩
  simp only [isBare, Bool.and_eq_true] at hb
  simp only [ser, serIdMap, hb, if_true, Option.bind_eq_bind, Option.bind_some, pure,
    Option.some.injEq] at h
  exact h.symm

/-- A bare ontology is determined by its IRI, vocabulary and schema. -/
theorem eq_of_isBare {o p : Ontology} (ho : o.isBare) (hp : p.isBare) (hi : o.iri = p.iri)
    (hv : o.vocabulary = p.vocabulary) (hs : o.schema = p.schema) : o = p := by
  simp only [isBare, Bool.and_eq_true, Std.ExtTreeMap.isEmpty_iff] at ho hp
  cases o
  cases p
  simp_all

/-- The derived JSON form determines the ontology. -/
theorem ser_injective [SerdeJson] {o p : Ontology} {j : Json} (ho : o.ser = some j)
    (hp : p.ser = some j) : o = p := by
  obtain ⟨hbo, rfl⟩ := ser_eq_some ho
  obtain ⟨hbp, he⟩ := ser_eq_some hp
  simp only [Json.obj.injEq, List.cons.injEq, Prod.mk.injEq, true_and, and_true] at he
  obtain ⟨hi, hv, hs⟩ := he
  exact eq_of_isBare hbo hbp
    (Codec.ser_injective (c := Codec.iri.option) (by simp) (by simp) hi)
    (Codec.ser_injective (by simp) (by simp) hv) (Codec.ser_injective (by simp) (by simp) hs)

end Ontology

end AtomrOntology
