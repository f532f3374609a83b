import AtomrOntology.Persist.Wire

/-!
# What a written snapshot is read back as

The wire form loses nothing of its own: a snapshot whose entities are stored under
their ids is read back as itself exactly when the reader restores every float in its
property values and attributes.
-/

namespace AtomrOntology

/-- The ids of a generation are read back. -/
@[simp] theorem LinkWire.ids_ofGeneration (g : WasGeneratedBy) :
    (LinkWire.ofGeneration g).ids = .ok (g.entity, g.activity) := by
  simp [LinkWire.ids, LinkWire.ofGeneration, bind, Except.bind, pure, Except.pure]

/-- The ids of a derivation are read back. -/
@[simp] theorem LinkWire.ids_ofDerivation (d : WasDerivedFrom) :
    (LinkWire.ofDerivation d).ids = .ok (d.derived, d.source) := by
  simp [LinkWire.ids, LinkWire.ofDerivation, bind, Except.bind, pure, Except.pure]

/-- The ids of a use are read back. -/
@[simp] theorem LinkWire.ids_ofUse (u : Used) :
    (LinkWire.ofUse u).ids = .ok (u.activity, u.entity) := by
  simp [LinkWire.ids, LinkWire.ofUse, bind, Except.bind, pure, Except.pure]

/-- What a wire ontology is converted into. -/
private theorem intoOntology_eq_ok {w : OntologyWire} {o : Ontology} :
    w.intoOntology = .ok o ↔ ∃ ns es xs,
      List.Forall₂ (fun n m => NodeWire.intoNode n = .ok m) w.nodes ns ∧
      List.Forall₂ (fun e f => EdgeWire.intoEdge e = .ok f) w.edges es ∧
      List.Forall₂ (fun a b => AxiomWire.intoAxiom a = .ok b) w.axioms xs ∧
      o = ⟨w.iri, w.vocabulary, w.schema, BTreeMap.insertAll Node.id ∅ ns,
        BTreeMap.insertAll Edge.id ∅ es, BTreeMap.insertAll Axiom.id ∅ xs⟩ := by
  simp only [OntologyWire.intoOntology, bind_eq_ok, foldlM_eq_ok,
    Ontology.foldl_upsertNode, Ontology.foldl_upsertEdge, Ontology.foldl_upsertAxiom,
    Ontology.empty]
  constructor
  · intro h
    obtain ⟨_, ⟨ns, hns, rfl⟩, _, ⟨es, hes, rfl⟩, xs, hxs, ho⟩ := h
    exact ⟨ns, es, xs, hns, hes, hxs, ho.symm⟩
  · intro h
    obtain ⟨ns, es, xs, hns, hes, hxs, ho⟩ := h
    exact ⟨_, ⟨ns, hns, rfl⟩, _, ⟨es, hes, rfl⟩, xs, hxs, ho.symm⟩

/-- Activities are inserted under their ids, one after another. -/
theorem foldl_recordActivity (as : List Activity) (l : ProvenanceLog) :
    as.foldl ProvenanceLog.recordActivity l =
      { l with activities := BTreeMap.insertAll Activity.id l.activities as } := by
  induction as generalizing l with
  | nil => rfl
  | cons a as ih => exact ih (l.recordActivity a)

/-- So are entities. -/
theorem foldl_recordEntity (es : List ProvEntity) (l : ProvenanceLog) :
    es.foldl ProvenanceLog.recordEntity l =
      { l with entities := BTreeMap.insertAll ProvEntity.id l.entities es } := by
  induction es generalizing l with
  | nil => rfl
  | cons e es ih => exact ih (l.recordEntity e)

private theorem foldl_generated (ps : List (ProvenanceId × ProvenanceId)) (l : ProvenanceLog) :
    ps.foldl (fun l p => l.generated p.1 p.2) l =
      { l with generations := l.generations ++ ps.map fun p => ⟨p.1, p.2⟩ } := by
  induction ps generalizing l with
  | nil => simp
  | cons p ps ih => rw [List.foldl_cons, ih]; simp [ProvenanceLog.generated]

private theorem foldl_derived (ps : List (ProvenanceId × ProvenanceId)) (l : ProvenanceLog) :
    ps.foldl (fun l p => l.derived p.1 p.2) l =
      { l with derivations := l.derivations ++ ps.map fun p => ⟨p.1, p.2⟩ } := by
  induction ps generalizing l with
  | nil => simp
  | cons p ps ih => rw [List.foldl_cons, ih]; simp [ProvenanceLog.derived]

private theorem foldl_used (ps : List (ProvenanceId × ProvenanceId)) (l : ProvenanceLog) :
    ps.foldl (fun l p => l.used p.1 p.2) l =
      { l with uses := l.uses ++ ps.map fun p => ⟨p.1, p.2⟩ } := by
  induction ps generalizing l with
  | nil => simp
  | cons p ps ih => rw [List.foldl_cons, ih]; simp [ProvenanceLog.used]

/-- What a wire ledger is converted into. -/
private theorem intoLog_eq_ok {w : ProvenanceLogWire} {l : ProvenanceLog} :
    w.intoLog = .ok l ↔ ∃ as es gs ds us,
      List.Forall₂ (fun a b => ActivityWire.intoActivity a = .ok b) w.activities as ∧
      List.Forall₂ (fun e f => ProvEntityWire.intoEntity e = .ok f) w.entities es ∧
      List.Forall₂ (fun g p => LinkWire.ids g = .ok p) w.generations gs ∧
      List.Forall₂ (fun d p => LinkWire.ids d = .ok p) w.derivations ds ∧
      List.Forall₂ (fun u p => LinkWire.ids u = .ok p) w.uses us ∧
      l = ⟨BTreeMap.insertAll Activity.id ∅ as, BTreeMap.insertAll ProvEntity.id ∅ es,
        gs.map fun p => ⟨p.1, p.2⟩, ds.map fun p => ⟨p.1, p.2⟩, w.attributions,
        us.map fun p => ⟨p.1, p.2⟩⟩ := by
  simp only [ProvenanceLogWire.intoLog, bind_eq_ok, foldlM_eq_ok, foldl_recordActivity,
    foldl_recordEntity, foldl_generated, foldl_derived, foldl_used, ProvenanceLog.empty]
  constructor
  · intro h
    obtain ⟨_, ⟨as, has, rfl⟩, _, ⟨es, hes, rfl⟩, _, ⟨gs, hgs, rfl⟩, _, ⟨ds, hds, rfl⟩, _,
      ⟨us, hus, rfl⟩, hl⟩ := h
    exact ⟨as, es, gs, ds, us, has, hes, hgs, hds, hus, (Except.ok.inj hl).symm⟩
  · intro h
    obtain ⟨as, es, gs, ds, us, has, hes, hgs, hds, hus, hl⟩ := h
    exact ⟨_, ⟨as, has, rfl⟩, _, ⟨es, hes, rfl⟩, _, ⟨gs, hgs, rfl⟩, _, ⟨ds, hds, rfl⟩, _,
      ⟨us, hus, rfl⟩, by rw [hl]; rfl⟩

private theorem links_decoded {α : Type} {of : α → LinkWire}
    {pair : α → ProvenanceId × ProvenanceId} (hof : ∀ x, (of x).ids = .ok (pair x))
    (xs : List α) :
    List.Forall₂ (fun g p => LinkWire.ids g = .ok p) (xs.map of) (xs.map pair) := by
  rw [List.forall₂_map_left_iff, List.forall₂_map_right_iff]
  exact List.forall₂_same.mpr fun x _ => hof x

variable [SerdeJson]

private theorem decodeId_eq {kind : IdKind} {id : Id kind} {s : String} {b : Bytes32}
    (hs : Codec.string.Reads id.toHex s) (hb : decodeId s = .ok b) : b = id.bytes := by
  rw [(Codec.survives_string _).reads_iff] at hs
  rw [hs, decodeId_toHex] at hb
  exact (Except.ok.inj hb).symm

/-- Links are texts, so they survive. -/
@[simp] theorem LinkWire.survives_codec {first second : String} {h : first ≠ second}
    (w : LinkWire) : (LinkWire.codec first second h).Survives w := by
  simp [LinkWire.codec]

variable [Chrono]

/-- A node through its wire form. -/
def Node.wire : Codec Node := NodeWire.codec.refine NodeWire.ofNode NodeWire.intoNode

/-- An edge through its wire form. -/
def Edge.wire : Codec Edge := EdgeWire.codec.refine EdgeWire.ofEdge EdgeWire.intoEdge

/-- An axiom through its wire form. -/
def Axiom.wire : Codec Axiom := AxiomWire.codec.refine AxiomWire.ofAxiom AxiomWire.intoAxiom

/-- An activity through its wire form. -/
def Activity.wire : Codec Activity :=
  ActivityWire.codec.refine ActivityWire.ofActivity ActivityWire.intoActivity

/-- An entity through its wire form. -/
def ProvEntity.wire : Codec ProvEntity :=
  ProvEntityWire.codec.refine ProvEntityWire.ofEntity ProvEntityWire.intoEntity

/-- Reading a node back keeps its id, and reads its properties back on their own. -/
theorem Node.reads_wire {n m : Node} (h : Node.wire.Reads n m) :
    m.id = n.id ∧ (Codec.map PropertyValue.codec).Reads n.properties m.properties := by
  obtain ⟨w, hw, hm⟩ := Codec.reads_refine.mp h
  simp only [NodeWire.codec, Node.fields, Codec.reads_iso, Codec.reads_record, Fields.reads_both,
    Fields.reads_required] at hw
  obtain ⟨b, hb, hm⟩ := bind_eq_ok.mp hm
  obtain rfl := Except.ok.inj hm
  exact ⟨by rw [decodeId_eq hw.1 hb], hw.2.2.2⟩

/-- A node survives if its values can be read. -/
theorem Node.survives_wire {n : Node} :
    Node.wire.Survives n ↔ ∀ v ∈ n.properties.vals, v.Readable := by
  constructor
  · intro h
    have hp : (Codec.map PropertyValue.codec).Survives n.properties := (Node.reads_wire h).2
    simpa using hp
  · intro h
    have hw : NodeWire.codec.Survives (.ofNode n) := by
      simpa [NodeWire.codec, Node.fields, NodeWire.ofNode] using h
    refine Codec.reads_refine.mpr ⟨_, hw, ?_⟩
    rw [NodeWire.intoNode, NodeWire.ofNode, decodeId_toHex]
    rfl

/-- Reading an edge back keeps its id, and reads its properties back on their own. -/
theorem Edge.reads_wire {e f : Edge} (h : Edge.wire.Reads e f) :
    f.id = e.id ∧ (Codec.map PropertyValue.codec).Reads e.properties f.properties := by
  obtain ⟨w, hw, hf⟩ := Codec.reads_refine.mp h
  simp only [EdgeWire.codec, Edge.fields, Codec.reads_iso, Codec.reads_record, Fields.reads_both,
    Fields.reads_required] at hw
  obtain ⟨b, hb, hf⟩ := bind_eq_ok.mp hf
  obtain ⟨_, _, hf⟩ := bind_eq_ok.mp hf
  obtain ⟨_, _, hf⟩ := bind_eq_ok.mp hf
  obtain rfl := Except.ok.inj hf
  exact ⟨by rw [decodeId_eq hw.1 hb], hw.2.2.2.2⟩

/-- An edge survives if its values can be read. -/
theorem Edge.survives_wire {e : Edge} :
    Edge.wire.Survives e ↔ ∀ v ∈ e.properties.vals, v.Readable := by
  constructor
  · intro h
    have hp : (Codec.map PropertyValue.codec).Survives e.properties := (Edge.reads_wire h).2
    simpa using hp
  · intro h
    have hw : EdgeWire.codec.Survives (.ofEdge e) := by
      simpa [EdgeWire.codec, Edge.fields, EdgeWire.ofEdge] using h
    refine Codec.reads_refine.mpr ⟨_, hw, ?_⟩
    rw [EdgeWire.intoEdge, EdgeWire.ofEdge, decodeId_toHex, decodeId_toHex, decodeId_toHex]
    rfl

omit [Chrono] in
/-- An axiom always survives. -/
theorem Axiom.survives_wire (a : Axiom) : Axiom.wire.Survives a := by
  have hw : AxiomWire.codec.Survives (.ofAxiom a) := by
    simp [AxiomWire.codec, Axiom.fields, AxiomWire.ofAxiom]
  refine Codec.reads_refine.mpr ⟨_, hw, ?_⟩
  obtain ⟨id, kind, provenance⟩ := a
  cases provenance with
  | none => rfl
  | some p =>
    simp only [AxiomWire.intoAxiom, AxiomWire.ofAxiom, Option.map_some, decodeId_toHex]
    rfl

/-- Reading an activity back keeps its id, and reads its attributes back on their own. -/
theorem Activity.reads_wire {a b : Activity} (h : Activity.wire.Reads a b) :
    b.id = a.id ∧ (Codec.map Codec.value).Reads a.attributes b.attributes := by
  obtain ⟨w, hw, hb⟩ := Codec.reads_refine.mp h
  simp only [ActivityWire.codec, Codec.reads_iso, Codec.reads_record, Fields.reads_both,
    Fields.reads_required] at hw
  obtain ⟨bytes, hbytes, hb⟩ := bind_eq_ok.mp hb
  obtain rfl := Except.ok.inj hb
  exact ⟨by rw [decodeId_eq hw.1 hbytes], hw.2.2.2.2.2⟩

/-- An activity survives if its attributes can be read. -/
theorem Activity.survives_wire {a : Activity} :
    Activity.wire.Survives a ↔ ReadableAttributes a.attributes := by
  constructor
  · intro h
    have hp : (Codec.map Codec.value).Survives a.attributes := (Activity.reads_wire h).2
    simpa [ReadableAttributes] using hp
  · intro h
    have hw : ActivityWire.codec.Survives (.ofActivity a) := by
      simpa [ActivityWire.codec, ActivityWire.ofActivity, ReadableAttributes] using h
    refine Codec.reads_refine.mpr ⟨_, hw, ?_⟩
    rw [ActivityWire.intoActivity, ActivityWire.ofActivity, decodeId_toHex]
    rfl

omit [Chrono] in
/-- Reading an entity back keeps its id, and reads its attributes back on their own. -/
theorem ProvEntity.reads_wire {e f : ProvEntity} (h : ProvEntity.wire.Reads e f) :
    f.id = e.id ∧ (Codec.map Codec.value).Reads e.attributes f.attributes := by
  obtain ⟨w, hw, hf⟩ := Codec.reads_refine.mp h
  simp only [ProvEntityWire.codec, Codec.reads_iso, Codec.reads_record, Fields.reads_both,
    Fields.reads_required] at hw
  obtain ⟨bytes, hbytes, hf⟩ := bind_eq_ok.mp hf
  obtain rfl := Except.ok.inj hf
  exact ⟨by rw [decodeId_eq hw.1 hbytes], hw.2.2.2⟩

omit [Chrono] in
/-- An entity survives if its attributes can be read. -/
theorem ProvEntity.survives_wire {e : ProvEntity} :
    ProvEntity.wire.Survives e ↔ ReadableAttributes e.attributes := by
  constructor
  · intro h
    have hp : (Codec.map Codec.value).Survives e.attributes := (ProvEntity.reads_wire h).2
    simpa [ReadableAttributes] using hp
  · intro h
    have hw : ProvEntityWire.codec.Survives (.ofEntity e) := by
      simpa [ProvEntityWire.codec, ProvEntityWire.ofEntity, ReadableAttributes] using h
    refine Codec.reads_refine.mpr ⟨_, hw, ?_⟩
    rw [ProvEntityWire.intoEntity, ProvEntityWire.ofEntity, decodeId_toHex]
    rfl

/-- An ontology through its wire form. -/
def Ontology.wire : Codec Ontology :=
  OntologyWire.codec.refine OntologyWire.ofOntology OntologyWire.intoOntology

/-- A ledger through its wire form. -/
def ProvenanceLog.wire : Codec ProvenanceLog :=
  ProvenanceLogWire.codec.refine ProvenanceLogWire.ofLog ProvenanceLogWire.intoLog

/-- The reader restores every float of an ontology. -/
structure Ontology.Readable (o : Ontology) : Prop where
  nodes : ∀ n ∈ o.nodes.vals, ∀ v ∈ n.properties.vals, v.Readable
  edges : ∀ e ∈ o.edges.vals, ∀ v ∈ e.properties.vals, v.Readable

/-- The reader restores every float of a ledger. -/
structure ProvenanceLog.Readable (l : ProvenanceLog) : Prop where
  activities : ∀ a ∈ l.activities.vals, ReadableAttributes a.attributes
  entities : ∀ e ∈ l.entities.vals, ReadableAttributes e.attributes

/-- An ontology is read back part by part. -/
private theorem Ontology.survives_wire_parts {o : Ontology} :
    Ontology.wire.Survives o ↔ (Node.wire.keyed Node.id).Survives o.nodes ∧
      (Edge.wire.keyed Edge.id).Survives o.edges ∧
      (Axiom.wire.keyed Axiom.id).Survives o.axioms := by
  have hparts : ∀ w, OntologyWire.codec.Reads (.ofOntology o) w ↔
      w.iri = o.iri ∧ w.vocabulary = o.vocabulary ∧ w.schema = o.schema ∧
        NodeWire.codec.list.Reads (o.nodes.vals.map NodeWire.ofNode) w.nodes ∧
        EdgeWire.codec.list.Reads (o.edges.vals.map EdgeWire.ofEdge) w.edges ∧
        AxiomWire.codec.list.Reads (o.axioms.vals.map AxiomWire.ofAxiom) w.axioms := by
    intro w
    have hi : Codec.iri.option.Survives o.iri := by simp
    simp only [OntologyWire.codec, OntologyWire.ofOntology, Codec.reads_iso, Codec.reads_record,
      Fields.reads_both, Fields.reads_required, Fields.reads_optional, Equiv.coe_fn_mk,
      hi.reads_iff, (Vocabulary.survives_codec _).reads_iff, (Schema.survives_codec _).reads_iff]
  constructor
  · intro h
    obtain ⟨w, hw, ho⟩ := Codec.reads_refine.mp h
    obtain ⟨ns, es, xs, hns, hes, hxs, ho⟩ := intoOntology_eq_ok.mp ho
    obtain ⟨-, -, -, hn, he, hx⟩ := (hparts w).mp hw
    refine ⟨Codec.reads_keyed.mpr ⟨ns, ?_, (congrArg Ontology.nodes ho).symm⟩,
      Codec.reads_keyed.mpr ⟨es, ?_, (congrArg Ontology.edges ho).symm⟩,
      Codec.reads_keyed.mpr ⟨xs, ?_, (congrArg Ontology.axioms ho).symm⟩⟩
    · exact Codec.reads_list.mp (Codec.reads_list_refine.mp ⟨_, hn, hns⟩)
    · exact Codec.reads_list.mp (Codec.reads_list_refine.mp ⟨_, he, hes⟩)
    · exact Codec.reads_list.mp (Codec.reads_list_refine.mp ⟨_, hx, hxs⟩)
  · intro h
    obtain ⟨hn, he, hx⟩ := h
    obtain ⟨ns, hns, hnodes⟩ := Codec.reads_keyed.mp hn
    obtain ⟨es, hes, hedges⟩ := Codec.reads_keyed.mp he
    obtain ⟨xs, hxs, haxioms⟩ := Codec.reads_keyed.mp hx
    obtain ⟨wn, hwn, hns⟩ := Codec.reads_list_refine.mpr (Codec.reads_list.mpr hns)
    obtain ⟨we, hwe, hes⟩ := Codec.reads_list_refine.mpr (Codec.reads_list.mpr hes)
    obtain ⟨wx, hwx, hxs⟩ := Codec.reads_list_refine.mpr (Codec.reads_list.mpr hxs)
    refine Codec.reads_refine.mpr ⟨⟨o.iri, o.vocabulary, o.schema, wn, we, wx⟩,
      (hparts _).mpr ⟨rfl, rfl, rfl, hwn, hwe, hwx⟩, ?_⟩
    exact intoOntology_eq_ok.mpr ⟨ns, es, xs, hns, hes, hxs, by rw [hnodes, hedges, haxioms]⟩

/-- An ontology is read back as itself when it is keyed by its ids and readable. -/
theorem Ontology.survives_wire {o : Ontology} :
    Ontology.wire.Survives o ↔ o.Keyed ∧ o.Readable := by
  rw [Ontology.survives_wire_parts, Codec.survives_keyed fun _ _ h => (Node.reads_wire h).1,
    Codec.survives_keyed fun _ _ h => (Edge.reads_wire h).1,
    Codec.survives_keyed fun a b h => by rw [(Axiom.survives_wire a).reads_iff.mp h]]
  simp only [Node.survives_wire, Edge.survives_wire, Axiom.survives_wire, implies_true, and_true]
  constructor
  · intro h
    obtain ⟨⟨hn, hrn⟩, ⟨he, hre⟩, hx⟩ := h
    exact ⟨⟨hn, he, hx⟩, hrn, hre⟩
  · intro h
    exact ⟨⟨h.1.nodes, h.2.nodes⟩, ⟨h.1.edges, h.2.edges⟩, h.1.axioms⟩

/-- A ledger is read back part by part; its links are never lost. -/
private theorem ProvenanceLog.survives_wire_parts {l : ProvenanceLog} :
    ProvenanceLog.wire.Survives l ↔ (Activity.wire.keyed Activity.id).Survives l.activities ∧
      (ProvEntity.wire.keyed ProvEntity.id).Survives l.entities := by
  have hparts : ∀ w, ProvenanceLogWire.codec.Reads (.ofLog l) w ↔
      ActivityWire.codec.list.Reads (l.activities.vals.map ActivityWire.ofActivity) w.activities ∧
        ProvEntityWire.codec.list.Reads (l.entities.vals.map ProvEntityWire.ofEntity) w.entities ∧
        w.generations = l.generations.map LinkWire.ofGeneration ∧
        w.derivations = l.derivations.map LinkWire.ofDerivation ∧
        w.attributions = l.attributions ∧ w.uses = l.uses.map LinkWire.ofUse := by
    intro w
    have hlinks : ∀ (first second : String) (h : first ≠ second)
        (xs : List LinkWire), (LinkWire.codec first second h).list.Survives xs := by simp
    have hattr : WasAttributedTo.codec.list.Survives l.attributions := by simp
    simp only [ProvenanceLogWire.codec, ProvenanceLogWire.ofLog, Codec.reads_iso,
      Codec.reads_record, Fields.reads_both, Fields.reads_required, Equiv.coe_fn_mk,
      (hlinks _ _ _ _).reads_iff, hattr.reads_iff]
  constructor
  · intro h
    obtain ⟨w, hw, hl⟩ := Codec.reads_refine.mp h
    obtain ⟨as, es, gs, ds, us, has, hes, -, -, -, hl⟩ := intoLog_eq_ok.mp hl
    obtain ⟨ha, he, -⟩ := (hparts w).mp hw
    refine ⟨Codec.reads_keyed.mpr ⟨as, ?_, (congrArg ProvenanceLog.activities hl).symm⟩,
      Codec.reads_keyed.mpr ⟨es, ?_, (congrArg ProvenanceLog.entities hl).symm⟩⟩
    · exact Codec.reads_list.mp (Codec.reads_list_refine.mp ⟨_, ha, has⟩)
    · exact Codec.reads_list.mp (Codec.reads_list_refine.mp ⟨_, he, hes⟩)
  · intro h
    obtain ⟨as, has, hactivities⟩ := Codec.reads_keyed.mp h.1
    obtain ⟨es, hes, hentities⟩ := Codec.reads_keyed.mp h.2
    obtain ⟨wa, hwa, has⟩ := Codec.reads_list_refine.mpr (Codec.reads_list.mpr has)
    obtain ⟨we, hwe, hes⟩ := Codec.reads_list_refine.mpr (Codec.reads_list.mpr hes)
    refine Codec.reads_refine.mpr ⟨⟨wa, we, _, _, _, _⟩,
      (hparts _).mpr ⟨hwa, hwe, rfl, rfl, rfl, rfl⟩, ?_⟩
    refine intoLog_eq_ok.mpr ⟨as, es, _, _, _, has, hes, links_decoded LinkWire.ids_ofGeneration _,
      links_decoded LinkWire.ids_ofDerivation _, links_decoded LinkWire.ids_ofUse _, ?_⟩
    rw [hactivities, hentities]
    simp [Function.comp_def]

/-- A ledger is read back as itself when it is keyed by its ids and readable. -/
theorem ProvenanceLog.survives_wire {l : ProvenanceLog} :
    ProvenanceLog.wire.Survives l ↔ l.Keyed ∧ l.Readable := by
  rw [ProvenanceLog.survives_wire_parts, Codec.survives_keyed fun _ _ h =>
    (Activity.reads_wire h).1,
    Codec.survives_keyed fun _ _ h => (ProvEntity.reads_wire h).1]
  simp only [Activity.survives_wire, ProvEntity.survives_wire]
  constructor
  · intro h
    exact ⟨⟨h.1.1, h.2.1⟩, h.1.2, h.2.2⟩
  · intro h
    exact ⟨⟨h.1.activities, h.2.activities⟩, h.1.entities, h.2.entities⟩

/-- Every entity of a snapshot is stored under its own id. -/
structure Snapshot.Keyed (s : Snapshot) : Prop where
  ontology : s.ontology.Keyed
  provenance : s.provenance.Keyed

/-- The reader restores every float of a snapshot. -/
structure Snapshot.Readable (s : Snapshot) : Prop where
  ontology : s.ontology.Readable
  provenance : s.provenance.Readable

/-- A snapshot survives if it is keyed and its values can be read. -/
theorem Snapshot.survives_codec {s : Snapshot} :
    Snapshot.codec.Survives s ↔ s.Keyed ∧ s.Readable := by
  have hsplit : Snapshot.codec.Survives s ↔
      Ontology.wire.Survives s.ontology ∧ ProvenanceLog.wire.Survives s.provenance := by
    constructor
    · intro h
      obtain ⟨w, hw, hs⟩ := Codec.reads_refine.mp h
      simp only [SnapshotWire.codec, Codec.reads_iso, Codec.reads_record, Fields.reads_both,
        Fields.reads_required] at hw
      obtain ⟨o, ho, hs⟩ := bind_eq_ok.mp hs
      obtain ⟨l, hl, hs⟩ := bind_eq_ok.mp hs
      obtain rfl := Except.ok.inj hs
      exact ⟨Codec.reads_refine.mpr ⟨_, hw.1, ho⟩, Codec.reads_refine.mpr ⟨_, hw.2.1, hl⟩⟩
    · intro h
      obtain ⟨wo, hwo, ho⟩ := Codec.reads_refine.mp h.1
      obtain ⟨wl, hwl, hl⟩ := Codec.reads_refine.mp h.2
      refine Codec.reads_refine.mpr ⟨⟨wo, wl, s.version⟩, ?_, ?_⟩
      · simp only [SnapshotWire.codec, SnapshotWire.ofSnapshot, Codec.reads_iso,
          Codec.reads_record, Fields.reads_both, Fields.reads_required]
        exact ⟨hwo, hwl, Codec.survives_u64 _⟩
      · exact bind_eq_ok.mpr ⟨_, ho, bind_eq_ok.mpr ⟨_, hl, rfl⟩⟩
  rw [hsplit, Ontology.survives_wire, ProvenanceLog.survives_wire]
  constructor
  · intro h
    exact ⟨⟨h.1.1, h.2.1⟩, h.1.2, h.2.2⟩
  · intro h
    exact ⟨⟨h.1.ontology, h.2.ontology⟩, h.1.provenance, h.2.provenance⟩

/-- Whatever is read from a document is stored under its own ids. -/
theorem Snapshot.keyed_of_de {j : Json} {s : Snapshot} (h : Snapshot.codec.de j = .ok s) :
    s.Keyed := by
  obtain ⟨w, -, hs⟩ := bind_eq_ok.mp h
  cases hw : w.intoSnapshot with
  | error e =>
    rw [hw] at hs
    cases hs
  | ok t =>
    rw [hw] at hs
    obtain rfl := Except.ok.inj hs
    obtain ⟨o, ho, hw⟩ := bind_eq_ok.mp hw
    obtain ⟨l, hl, hw⟩ := bind_eq_ok.mp hw
    obtain rfl := Except.ok.inj hw
    obtain ⟨ns, es, xs, -, -, -, rfl⟩ := intoOntology_eq_ok.mp ho
    obtain ⟨as, ps, gs, ds, us, -, -, -, -, -, rfl⟩ := intoLog_eq_ok.mp hl
    exact ⟨⟨(BTreeMap.KeyedBy.empty _).insertAll ns, (BTreeMap.KeyedBy.empty _).insertAll es,
      (BTreeMap.KeyedBy.empty _).insertAll xs⟩, (BTreeMap.KeyedBy.empty _).insertAll as,
      (BTreeMap.KeyedBy.empty _).insertAll ps⟩

end AtomrOntology
