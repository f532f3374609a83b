import AtomrOntology.Remote.Client

/-!
# Calls and answers that come back

Which parameters and results come back from their documents: the floats in them are
restored by the reader, and the free JSON and the nested patterns leave room for the
levels around them. Ids, rows, diffs and axioms always come back.
-/

namespace AtomrOntology

namespace Remote

/-- A value comes back as itself from within an envelope. -/
structure Carried {α : Type} [SerdeJson] (c : Codec α) (x : α) : Prop where
  fits : c.Fits 126 x
  survives : c.Survives x

section

variable [SerdeJson]

/-- The reader restores the floats of every property, and the free JSON among them leaves room
for the levels around it. -/
def CarriedProperties (properties : BTreeMap String PropertyValue) : Prop :=
  ∀ v ∈ properties.vals, v.Readable ∧ v.nesting ≤ 120

/-- The reader restores the floats of every attribute, and none nests too deeply. -/
def CarriedAttributes (attributes : BTreeMap String JsonValue) : Prop :=
  ∀ v ∈ attributes.vals, v.val.reread = some v.val ∧ v.val.depth ≤ 121

structure CarriedOntology (o : Ontology) : Prop where
  keyed : o.Keyed
  nodes : ∀ n ∈ o.nodes.vals, CarriedProperties n.properties
  edges : ∀ e ∈ o.edges.vals, CarriedProperties e.properties

structure CarriedLog (l : ProvenanceLog) : Prop where
  keyed : l.Keyed
  activities : ∀ a ∈ l.activities.vals, CarriedAttributes a.attributes
  entities : ∀ e ∈ l.entities.vals, CarriedAttributes e.attributes

structure CarriedDelta (d : OntologyDelta) : Prop where
  nodes : ∀ n ∈ d.nodes, CarriedProperties n.properties
  edges : ∀ e ∈ d.edges, CarriedProperties e.properties

variable [Chrono]

/-- A pattern whose document opens at most so many levels. -/
structure CarriedPattern (levels : Nat) (p : NodePattern) : Prop where
  fits : WireNodePattern.codec.Fits levels (.ofPattern p)
  readable : (WireNodePattern.ofPattern p).Readable

structure CarriedPlan (plan : TraversalPlan) : Prop where
  seed : CarriedPattern 124 plan.seed
  targets : ∀ step ∈ plan.steps, CarriedPattern 122 step.target
  edges : ∀ step ∈ plan.steps, ∀ v ∈ step.edge.properties.vals, v.Readable ∧ v.nesting ≤ 119

/-- The parameters of a call come back from their document. -/
def CarriedCall : StoreCall → Prop
  | .upsertNode node => CarriedProperties node.properties
  | .upsertEdge edge => CarriedProperties edge.properties
  | .matchPattern pattern => CarriedPattern 125 pattern
  | .traverse plan => CarriedPlan plan
  | .diff other => CarriedOntology other
  | .commitWithProvenance delta activity => CarriedDelta delta ∧
      CarriedAttributes activity.attributes
  | _ => True

/-- An answer comes back from its document. -/
def CarriedAnswer : StoreAnswer → Prop
  | .node node => ∀ n ∈ node, CarriedProperties n.properties
  | .edge edge => ∀ e ∈ edge, CarriedProperties e.properties
  | .ontology o => CarriedOntology o
  | .provenance log => CarriedLog log
  | _ => True

/-- A property fits below so many levels. -/
theorem CarriedProperties.fits {properties : BTreeMap String PropertyValue}
    (h : CarriedProperties properties) {levels : Nat} (hlevels : 121 ≤ levels) :
    ∀ v ∈ properties.vals, PropertyValue.codec.Fits levels v := by
  intro v hv
  rw [PropertyValue.fits_codec (by omega)]
  have := (h v hv).2
  omega

omit [Chrono] in
/-- Carried properties are read back. -/
theorem CarriedProperties.readable {properties : BTreeMap String PropertyValue}
    (h : CarriedProperties properties) : ∀ v ∈ properties.vals, v.Readable := fun v hv => (h v hv).1

/-- A node with carried properties does not nest too deeply. -/
theorem CarriedProperties.fits_node {n : Node} (h : CarriedProperties n.properties) {levels : Nat}
    (hlevels : 123 ≤ levels) : Node.codec.Fits levels n := by
  have hfits : Node.codec.Fits 123 n := by
    simpa [Node.codec, Node.fields, Node.parts] using h.fits (le_refl 121)
  exact Nat.le_trans hfits hlevels

/-- Nor does an edge. -/
theorem CarriedProperties.fits_edge {e : Edge} (h : CarriedProperties e.properties) {levels : Nat}
    (hlevels : 123 ≤ levels) : Edge.codec.Fits levels e := by
  have hfits : Edge.codec.Fits 123 e := by
    simpa [Edge.codec, Edge.fields, Edge.parts] using h.fits (le_refl 121)
  exact Nat.le_trans hfits hlevels

omit [SerdeJson] [Chrono] in
/-- Axioms nest three times at most. -/
theorem axiomDocument_fits (a : Axiom) {levels : Nat} (hlevels : 3 ≤ levels) :
    Axiom.codec.Fits levels a := by
  have hkind : AxiomKind.codec.Fits 2 a.kind := a.kind.fits_codec (by omega)
  have hfits : Axiom.codec.Fits 3 a := by simp [Axiom.codec, Axiom.fields, hkind]
  exact Nat.le_trans hfits hlevels

/-- A carried ontology survives on the wire. -/
theorem CarriedOntology.wire {o : Ontology} (h : CarriedOntology o) :
    WireOntology.codec.Survives (.ofOntology o) ∧ WireOntology.codec.Fits 125 (.ofOntology o) := by
  constructor
  · have hnodes : ∀ n ∈ o.nodes.vals, Node.codec.Survives n :=
      fun n hn => Node.survives_codec.mpr (h.nodes n hn).readable
    have hedges : ∀ e ∈ o.edges.vals, Edge.codec.Survives e :=
      fun e he => Edge.survives_codec.mpr (h.edges e he).readable
    simp [-Node.survives_codec, -Edge.survives_codec, WireOntology.codec, WireOntology.ofOntology]
    exact ⟨hnodes, hedges⟩
  · have hnodes : ∀ n ∈ o.nodes.vals, Node.codec.Fits 123 n :=
      fun n hn => (h.nodes n hn).fits_node (le_refl 123)
    have hedges : ∀ e ∈ o.edges.vals, Edge.codec.Fits 123 e :=
      fun e he => (h.edges e he).fits_edge (le_refl 123)
    have haxioms : ∀ a : Axiom, Axiom.codec.Fits 123 a := fun a => axiomDocument_fits a (by omega)
    have hschema : Schema.codec.Fits 124 o.schema := o.schema.fits_codec (by omega)
    simp [WireOntology.codec, WireOntology.ofOntology, haxioms, hschema]
    exact ⟨hnodes, hedges⟩

/-- An activity with carried attributes survives on the wire. -/
theorem CarriedAttributes.activity {a : Activity} (h : CarriedAttributes a.attributes) :
    WireActivity.codec.Survives (.ofActivity a) ∧ WireActivity.codec.Fits 123 (.ofActivity a) := by
  constructor
  · have hread : ∀ v ∈ a.attributes.vals, v.val.reread = some v.val := fun v hv => (h v hv).1
    simpa [-Subtype.forall, WireActivity.codec, WireActivity.ofActivity] using hread
  · have hdepth : ∀ v ∈ a.attributes.vals, v.val.depth ≤ 121 := fun v hv => (h v hv).2
    simpa [-Subtype.forall, WireActivity.codec, WireActivity.ofActivity] using hdepth

omit [Chrono] in
/-- So does an entity. -/
theorem CarriedAttributes.entity {e : ProvEntity} (h : CarriedAttributes e.attributes) :
    WireProvEntity.codec.Survives (.ofEntity e) ∧ WireProvEntity.codec.Fits 123 (.ofEntity e) := by
  constructor
  · have hread : ∀ v ∈ e.attributes.vals, v.val.reread = some v.val := fun v hv => (h v hv).1
    simpa [-Subtype.forall, WireProvEntity.codec, WireProvEntity.ofEntity] using hread
  · have hdepth : ∀ v ∈ e.attributes.vals, v.val.depth ≤ 121 := fun v hv => (h v hv).2
    simpa [-Subtype.forall, WireProvEntity.codec, WireProvEntity.ofEntity] using hdepth

/-- A carried provenance log survives on the wire. -/
theorem CarriedLog.wire {l : ProvenanceLog} (h : CarriedLog l) :
    WireProvenanceLog.codec.Survives (.ofLog l) ∧ WireProvenanceLog.codec.Fits 125 (.ofLog l) := by
  have hactivities := fun a ha => (h.activities a ha).activity
  have hentities := fun e he => (h.entities e he).entity
  have hlinks : (∀ x ∈ l.generations, WasGeneratedBy.codec.Fits 123 x) ∧
      (∀ x ∈ l.derivations, WasDerivedFrom.codec.Fits 123 x) ∧ ∀ x ∈ l.uses,
        Used.codec.Fits 123 x := by
    simp [WasGeneratedBy.codec, WasDerivedFrom.codec, Used.codec]
  simp only [WireProvenanceLog.codec, WireProvenanceLog.ofLog]
  simp
  exact ⟨⟨fun a ha => (hactivities a ha).1, fun e he => (hentities e he).1⟩,
    ⟨⟨⟨fun a ha => (hactivities a ha).2, fun e he => (hentities e he).2⟩, hlinks.1⟩, hlinks.2.1⟩,
    hlinks.2.2⟩

/-- A carried delta survives on the wire. -/
theorem CarriedDelta.wire {d : OntologyDelta} (h : CarriedDelta d) :
    WireOntologyDelta.codec.Survives (.ofDelta d) ∧
    WireOntologyDelta.codec.Fits 125 (.ofDelta d) := by
  constructor
  · have hnodes : ∀ n ∈ d.nodes, Node.codec.Survives n :=
      fun n hn => Node.survives_codec.mpr (h.nodes n hn).readable
    have hedges : ∀ e ∈ d.edges, Edge.codec.Survives e :=
      fun e he => Edge.survives_codec.mpr (h.edges e he).readable
    simp [-Node.survives_codec, -Edge.survives_codec, WireOntologyDelta.codec,
      WireOntologyDelta.ofDelta]
    exact ⟨hnodes, hedges⟩
  · have hnodes : ∀ n ∈ d.nodes, Node.codec.Fits 123 n :=
      fun n hn => (h.nodes n hn).fits_node (le_refl 123)
    have hedges : ∀ e ∈ d.edges, Edge.codec.Fits 123 e :=
      fun e he => (h.edges e he).fits_edge (le_refl 123)
    have haxioms : ∀ a : Axiom, Axiom.codec.Fits 123 a := fun a => axiomDocument_fits a (by omega)
    simp [WireOntologyDelta.codec, WireOntologyDelta.ofDelta, haxioms]
    exact ⟨hnodes, hedges⟩

omit [Chrono] in
/-- Rows hold ids only, so they always survive. -/
theorem carried_rows (rows : List MatchRow) :
    WireMatchRow.codec.list.Survives (rows.map .ofRow) ∧
      WireMatchRow.codec.list.Fits 125 (rows.map .ofRow) := by
  simp [WireMatchRow.codec, WireMatchRow.ofRow]

/-- A carried pattern is read back. -/
theorem CarriedPattern.survives {levels : Nat} {p : NodePattern} (h : CarriedPattern levels p)
    (hlevels : levels ≤ 127) : WireNodePattern.codec.Survives (.ofPattern p) := by
  have hfits : (WireNodePattern.codecAt ((WireNodePattern.ofPattern p).height + 1)).Fits levels
      (.ofPattern p) := h.fits
  have hheight := WireNodePattern.height_le_of_fits (Nat.lt_succ_self _) hfits
  refine (WireNodePattern.survives_codec ?_).mpr h.readable
  rw [Json.recursionLimit]
  omega

/-- A step fits below the list of steps. -/
theorem CarriedPlan.step {plan : TraversalPlan} (h : CarriedPlan plan) {step : TraversalStep}
    (hstep : step ∈ plan.steps) : WireTraversalStep.codec.Survives (.ofStep step) ∧
      WireTraversalStep.codec.Fits 123 (.ofStep step) := by
  have htarget := h.targets step hstep
  constructor
  · have hread : ∀ v ∈ step.edge.properties.vals, v.Readable :=
      fun v hv => (h.edges step hstep v hv).1
    simp [WireTraversalStep.codec, WireTraversalStep.ofStep, htarget.survives,
      WireEdgePattern.codec,
      WireEdgePattern.ofPattern]
    exact ⟨hread, fun r _ => by simp [Codec.pair]⟩
  · have hfits : ∀ v ∈ step.edge.properties.vals, PropertyValue.codec.Fits 120 v := by
      intro v hv
      rw [PropertyValue.fits_codec (by omega)]
      have := (h.edges step hstep v hv).2
      omega
    simp [WireTraversalStep.codec, WireTraversalStep.ofStep, htarget.fits, WireEdgePattern.codec,
      WireEdgePattern.ofPattern]
    exact fun _ => hfits

/-- A carried plan survives on the wire. -/
theorem CarriedPlan.wire {plan : TraversalPlan} (h : CarriedPlan plan) :
    WireTraversalPlan.codec.Survives (.ofPlan plan) ∧
      WireTraversalPlan.codec.Fits 125 (.ofPlan plan) := by
  have hsteps := fun step (hstep : step ∈ plan.steps) => h.step hstep
  have hseed := h.seed.survives (by omega)
  have horder : ∀ o : WireSortOrder, WireSortOrder.codec.Survives o := by
    intro o
    simp only [WireSortOrder.codec, Codec.survives_variants]
    cases o <;> decide
  simp [WireTraversalPlan.codec, WireTraversalPlan.ofPlan, hseed, h.seed.fits, horder]
  exact ⟨⟨fun s hs => (hsteps s hs).1, fun a _ => by simp [Codec.u64, Codec.ints]⟩,
    fun s hs => (hsteps s hs).2, fun _ b _ _ _ _ _ => Codec.fits_variants b⟩

end

section

variable [SerdeJson] {α : Type} {c : Codec α} {x : α} {name : String}

/-- A payload is carried if its contents are. -/
theorem carried_payload (hs : c.Survives x) (hf : c.Fits 125 x) : Carried (payload name c) x where
  fits := by simp [payload, hf]
  survives := by simp [payload, hs]

theorem carried_wire (h : c.Survives x ∧ c.Fits 125 x) : Carried (payload name c) x :=
  carried_payload h.1 h.2

omit [SerdeJson] in
/-- A payload is not written as null. -/
theorem payload_ne_null : (payload name c).ser x ≠ .null := by simp [payload, Codec.record]

/-- An empty payload is carried. -/
theorem carried_empty : Carried emptyPayload () where
  fits := by
    rw [emptyPayload, Codec.fits_record]
    exact ⟨by omega, fun kv h => absurd h List.not_mem_nil⟩
  survives := by simp [emptyPayload]

omit [SerdeJson] in
theorem emptyPayload_ne_null : emptyPayload.ser () ≠ .null := by simp [emptyPayload, Codec.record]

/-- The payload of a commit is carried if its delta and its activity are. -/
theorem carried_commit [Chrono] {delta : WireOntologyDelta} {activity : WireActivity}
    (hdelta : WireOntologyDelta.codec.Survives delta ∧ WireOntologyDelta.codec.Fits 125 delta)
    (hactivity : WireActivity.codec.Survives activity ∧ WireActivity.codec.Fits 123 activity) :
    Carried CommitRequest (delta, activity) where
  fits := by
    have hroom : WireActivity.codec.Fits 125 activity := Nat.le_trans hactivity.2 (by omega)
    simp [CommitRequest, hdelta.2, hroom]
  survives := by simp [CommitRequest, hdelta.1, hactivity.1]

/-- A payload that need not hold a value. -/
theorem carried_optional {x : Option α}
    (h : ∀ y ∈ x, c.Survives y ∧ c.Fits 125 y ∧ c.ser y ≠ .null) :
    Carried (.record (.optional name c)) x := by
  constructor
  all_goals
    cases x with
    | none => simp
    | some y =>
      obtain ⟨hs, hf, hne⟩ := h y rfl
      simp [hs, hf, hne]

end

end Remote

end AtomrOntology
