import AtomrOntology.Validate.Consistency

/-!
# What a clean report means

A clean report means that every check passed, but the checks of nodes look at their own labels
only, and some constraints of edge types are not checked. Which constraints are left to the
ontology is exact: where those hold, a clean report means that nodes and edges conform.
-/

namespace AtomrOntology

namespace Conformance

open Consistency Shapes

variable {order : KeyOrder} {o : Ontology} {n : Node} {e : Edge} {t label : String} {id : NodeId}

/-- All checks that can find an error pass. -/
structure Passes (o : Ontology) : Prop where
  counts : ∀ n ∈ o.nodes.vals, ∀ t ∈ n.types, ∀ ty, o.schema.nodeTypes[t]? = some ty → Counts n ty
  fits : ∀ e ∈ o.edges.vals, ∀ et, o.schema.edgeTypes[e.label]? = some et →
    Fits o e.source et.domain ∧ Fits o e.target et.range
  disjoint : DisjointKept o
  functional : FunctionalKept o
  acyclic : ∀ c, ¬OnCycle o c

/-- A report is clean exactly if every check passes. -/
theorem validate_clean [DebugEscapes] : (validate order o).isClean = true ↔ Passes o := by
  have hboth : (validate order o).isClean = true ↔
      (checkShapes o).isClean = true ∧ (checkConsistency order o).isClean = true := by
    simp only [ValidationReport.isClean_iff, validate, ValidationReport.extend,
      List.forall_mem_append]
  rw [hboth, checkShapes_clean, checkConsistency_clean]
  constructor
  · intro h
    exact ⟨h.1.1, h.1.2, h.2.1, h.2.2.1, h.2.2.2⟩
  · intro h
    exact ⟨⟨h.counts, h.fits⟩, h.disjoint, h.functional, h.acyclic⟩

/-- A type is a label of a node or a supertype of one, however far up. -/
def Inherits (o : Ontology) (n : Node) (t : String) : Prop :=
  ∃ l ∈ n.types, o.schema.SubtypeOf l t

/-- Nodes have the numbers of values that all their types declare, and no two disjoint types. -/
structure InstancesConform (o : Ontology) : Prop where
  counts : ∀ n ∈ o.nodes.vals, ∀ t, Inherits o n t → ∀ ty, o.schema.nodeTypes[t]? = some ty →
    Counts n ty
  disjoint : ∀ n ∈ o.nodes.vals, ∀ left right, States o (.disjointWith left right) →
    ¬(Inherits o n left ∧ Inherits o n right)

/-- A type declares a property with a cardinality. -/
def Declares (s : Schema) (t p : String) (c : Cardinality) : Prop :=
  ∃ ty, s.nodeTypes[t]? = some ty ∧ ∃ prop ∈ ty.properties, prop.name = p ∧ prop.cardinality = c

/-- The labels themselves let a node have the property, or lack it. -/
def Allow (s : Schema) (labels : List String) (p : String) (present : Bool) : Prop :=
  ∀ t ∈ labels, ∀ c, Declares s t p c → c.contains present.toUInt32 = true

/-- No check fails because of labels, edges and axioms alone, whatever the values of properties. -/
structure LabelsPass (o : Ontology) : Prop where
  counts : ∀ n ∈ o.nodes.vals, ∀ p, ∃ present, Allow o.schema n.types p present
  fits : ∀ e ∈ o.edges.vals, ∀ et, o.schema.edgeTypes[e.label]? = some et →
    Fits o e.source et.domain ∧ Fits o e.target et.range
  disjoint : DisjointKept o
  functional : FunctionalKept o
  acyclic : ∀ c, ¬OnCycle o c

/-- Labels imply what they inherit: where they allow a node to have or to lack a property, so does
every supertype, and no two supertypes are disjoint. -/
structure Imply (o : Ontology) (labels : List String) : Prop where
  counts : ∀ l ∈ labels, ∀ t, o.schema.SubtypeOf l t → ∀ p c, Declares o.schema t p c →
    ∀ present, Allow o.schema labels p present → c.contains present.toUInt32 = true
  disjoint : ∀ left right, States o (.disjointWith left right) →
    ¬((∃ l ∈ labels, o.schema.SubtypeOf l left) ∧ ∃ l ∈ labels, o.schema.SubtypeOf l right)

/-- Two ontologies that differ in what their nodes say beyond their labels, and in nothing that is
checked otherwise. -/
structure SameLabels (o o' : Ontology) : Prop where
  schema : o'.schema = o.schema
  axioms : o'.axioms = o.axioms
  edges : o'.edges = o.edges
  types : ∀ id : NodeId, o'.nodes[id]?.map Node.types = o.nodes[id]?.map Node.types

/-- An ontology has its own labels. -/
theorem SameLabels.refl (o : Ontology) : SameLabels o o := ⟨rfl, rfl, rfl, fun _ => rfl⟩

/-- Having the same labels is mutual. -/
theorem SameLabels.symm {o o' : Ontology} (h : SameLabels o o') : SameLabels o' o :=
  ⟨h.schema.symm, h.axioms.symm, h.edges.symm, fun id => (h.types id).symm⟩

/-- A node of the one ontology has a counterpart with its labels in the other. -/
theorem SameLabels.exists_node {o o' : Ontology} (h : SameLabels o o') {id : NodeId} {n : Node}
    (hn : o.nodes[id]? = some n) : ∃ n', o'.nodes[id]? = some n' ∧ n'.types = n.types := by
  have htypes := h.types id
  rw [hn] at htypes
  exact Option.map_eq_some_iff.mp htypes

/-- Every node has one with the same labels. -/
theorem SameLabels.exists_mem {o o' : Ontology} (h : SameLabels o o') {n : Node}
    (hn : n ∈ o.nodes.vals) : ∃ n' ∈ o'.nodes.vals, n'.types = n.types := by
  obtain ⟨id, hid⟩ := BTreeMap.mem_vals.mp hn
  obtain ⟨n', hn', htypes⟩ := h.exists_node hid
  exact ⟨n', BTreeMap.mem_vals.mpr ⟨id, hn'⟩, htypes⟩

/-- Both state the same axioms. -/
theorem SameLabels.states {o o' : Ontology} (h : SameLabels o o') {kind : AxiomKind} :
    States o' kind ↔ States o kind := by
  rw [States, States, h.axioms]

/-- Both have the same cycles. -/
theorem SameLabels.onCycle {o o' : Ontology} (h : SameLabels o o') {c : String} :
    OnCycle o' c ↔ OnCycle o c := by
  have hsub : SubClass o' = SubClass o := by
    ext sub sup
    exact h.states
  rw [OnCycle, OnCycle, hsub]

/-- Ends that fit do so in both. -/
theorem SameLabels.fits {o o' : Ontology} (h : SameLabels o o') {allowed : List String}
    (hfits : Fits o id allowed) : Fits o' id allowed := by
  intro hne n' hn'
  obtain ⟨n, hn, htypes⟩ := h.symm.exists_node hn'
  obtain ⟨t, ht, a, ha, hsub⟩ := hfits hne n hn
  exact ⟨t, htypes ▸ ht, a, ha, h.schema ▸ hsub⟩

/-- What does not depend on values passes or fails in both. -/
theorem SameLabels.labelsPass {o o' : Ontology} (h : SameLabels o o') (hpass : LabelsPass o) :
    LabelsPass o' where
  counts n' hn' p := by
    obtain ⟨n, hn, htypes⟩ := h.symm.exists_mem hn'
    rw [h.schema, ← htypes]
    exact hpass.counts n hn p
  fits e he et het := by
    rw [h.edges] at he
    rw [h.schema] at het
    exact ⟨h.fits (hpass.fits e he et het).1, h.fits (hpass.fits e he et het).2⟩
  disjoint n' hn' left right hstated := by
    obtain ⟨n, hn, htypes⟩ := h.symm.exists_mem hn'
    rw [← htypes]
    exact hpass.disjoint n hn left right (h.states.mp hstated)
  functional := by
    unfold FunctionalKept
    simp only [h.edges, h.states]
    exact hpass.functional
  acyclic c hc := hpass.acyclic c (h.onCycle.mp hc)

/-- A property counts once, if there is one. -/
theorem valueCount_eq (n : Node) (p : String) :
    n.valueCount p = (n.properties.contains p).toUInt32 := by
  unfold Node.valueCount
  rw [Std.ExtTreeMap.contains_eq_isSome_getElem?]
  cases n.properties[p]? with
  | some _ => rfl
  | none => rfl

/-- The numbers of values are the declared ones if the labels allow what the node has. -/
theorem counts_iff {s : Schema} : (∀ ty, s.nodeTypes[t]? = some ty → Counts n ty) ↔
    ∀ p c, Declares s t p c → c.contains (n.properties.contains p).toUInt32 = true := by
  constructor
  · rintro h p c ⟨ty, hty, prop, hprop, rfl, rfl⟩
    rw [← valueCount_eq]
    exact h ty hty prop hprop
  · intro h ty hty prop hprop
    rw [valueCount_eq]
    exact h _ _ ⟨ty, hty, prop, hprop, rfl, rfl⟩

/-- Every check passes if labels do and every property is there where it must be and nowhere
else. -/
theorem passes_iff : Passes o ↔ LabelsPass o ∧
    ∀ n ∈ o.nodes.vals, ∀ p, Allow o.schema n.types p (n.properties.contains p) := by
  constructor
  · intro h
    have hallow : ∀ n ∈ o.nodes.vals, ∀ p, Allow o.schema n.types p (n.properties.contains p) :=
      fun n hn p t ht c hc => counts_iff.mp (h.counts n hn t ht) p c hc
    exact ⟨⟨fun n hn p => ⟨_, hallow n hn p⟩, h.fits, h.disjoint, h.functional, h.acyclic⟩, hallow⟩
  · intro h
    obtain ⟨hlabels, hallow⟩ := h
    exact ⟨fun n hn t ht => counts_iff.mpr fun p c hc => hallow n hn p t ht c hc, hlabels.fits,
      hlabels.disjoint, hlabels.functional, hlabels.acyclic⟩

/-- Where labels imply what they inherit, a node that passes the checks conforms. -/
theorem instancesConform_of_imply (h : Passes o) (himply : ∀ n ∈ o.nodes.vals, Imply o n.types) :
    InstancesConform o := by
  obtain ⟨-, hallow⟩ := passes_iff.mp h
  constructor
  · intro n hn t ht
    obtain ⟨l, hl, hsub⟩ := ht
    exact counts_iff.mpr fun p c hc => (himply n hn).counts l hl t hsub p c hc _ (hallow n hn p)
  · intro n hn left right hstated
    exact (himply n hn).disjoint left right hstated

/-- The names of all properties that a schema declares. -/
def declaredNames (s : Schema) : List String :=
  s.nodeTypes.vals.flatMap fun ty => ty.properties.map PropertyType.name

/-- A property that a type declares has a declared name. -/
theorem mem_declaredNames {s : Schema} {p : String} {c : Cardinality} (h : Declares s t p c) :
    p ∈ declaredNames s := by
  obtain ⟨ty, hty, prop, hprop, rfl, -⟩ := h
  exact List.mem_flatMap.mpr ⟨ty, BTreeMap.mem_vals.mpr ⟨t, hty⟩, List.mem_map_of_mem hprop⟩

/-- A node with the declared properties that are picked for its labels. -/
def pickedNode (s : Schema) (pick : List String → String → Bool) (n : Node) : Node :=
  { n with
    properties := .ofList (((declaredNames s).filter (pick n.types)).map fun p =>
      (p, PropertyValue.bool true)) compare }

/-- A picked node has the properties that were picked. -/
theorem contains_pickedNode {s : Schema} {pick : List String → String → Bool} {p : String}
    (hp : p ∈ declaredNames s) : (pickedNode s pick n).properties.contains p = pick n.types p := by
  rw [Bool.eq_iff_iff, Std.ExtTreeMap.contains_iff_mem, pickedNode, Std.ExtTreeMap.mem_ofList,
    List.contains_iff_mem, List.map_map]
  simp [hp]

/-- The ontology with properties that are picked for the labels of its nodes. -/
def picked (o : Ontology) (pick : List String → String → Bool) : Ontology :=
  { o with nodes := o.nodes.map fun _ n => pickedNode o.schema pick n }

/-- Picking changes the nodes under their ids. -/
theorem get_picked {pick : List String → String → Bool} :
    (picked o pick).nodes[id]? = o.nodes[id]?.map (pickedNode o.schema pick) := by
  rw [picked, Std.ExtTreeMap.getElem?_map]

/-- Picking properties leaves the labels. -/
theorem sameLabels_picked {pick : List String → String → Bool} : SameLabels o (picked o pick) := by
  refine ⟨rfl, rfl, rfl, fun id => ?_⟩
  rw [get_picked, Option.map_map]
  rfl

/-- What is picked as the own labels allow passes. -/
theorem passes_picked {pick : List String → String → Bool} (h : LabelsPass o)
    (hpick : ∀ n ∈ o.nodes.vals, ∀ p, Allow o.schema n.types p (pick n.types p)) :
    Passes (picked o pick) := by
  refine passes_iff.mpr ⟨sameLabels_picked.labelsPass h, fun n' hn' p t ht c hc => ?_⟩
  obtain ⟨id, hid⟩ := BTreeMap.mem_vals.mp hn'
  rw [get_picked, Option.map_eq_some_iff] at hid
  obtain ⟨n, hn, rfl⟩ := hid
  change Declares o.schema t p c at hc
  rw [contains_pickedNode (mem_declaredNames hc)]
  exact hpick n (BTreeMap.mem_vals.mpr ⟨id, hn⟩) p t ht c hc

/-- Every choice that the labels of a node allow is made by some ontology that passes, so labels
that imply less than they inherit let a node pass that does not conform. -/
theorem imply_of_instancesConform (h : LabelsPass o)
    (hall : ∀ o', SameLabels o o' → Passes o' → InstancesConform o') (hn : n ∈ o.nodes.vals) :
    Imply o n.types := by
  have hex : ∀ labels q, ∃ b, (∃ b', Allow o.schema labels q b') → Allow o.schema labels q b := by
    intro labels q
    by_cases hb : ∃ b', Allow o.schema labels q b'
    · exact ⟨hb.choose, fun _ => hb.choose_spec⟩
    · exact ⟨true, fun h => absurd h hb⟩
  choose pick hpick using hex
  obtain ⟨id, hid⟩ := BTreeMap.mem_vals.mp hn
  have hmem : ∀ pick', pickedNode o.schema pick' n ∈ (picked o pick').nodes.vals := by
    intro pick'
    exact BTreeMap.mem_vals.mpr ⟨id, by rw [get_picked, hid]; rfl⟩
  constructor
  · intro l hl t hsub p c hc present hallow
    -- the node has, or lacks, the one property as asked, and all others as they are allowed
    let pick' := Function.update pick n.types (Function.update (pick n.types) p present)
    have hpick' : ∀ m ∈ o.nodes.vals, ∀ q, Allow o.schema m.types q (pick' m.types q) := by
      intro m hm q
      have hown := hpick m.types q (h.counts m hm q)
      by_cases hm : m.types = n.types
      · rw [hm] at hown ⊢
        by_cases hq : q = p
        · subst hq
          simpa [pick'] using hallow
        · simpa [pick', hq] using hown
      · simpa [pick', hm] using hown
    have hconform := hall _ sameLabels_picked (passes_picked h hpick')
    have hcount := counts_iff.mp (hconform.counts _ (hmem pick') t ⟨l, hl, hsub⟩) p c hc
    rw [contains_pickedNode (mem_declaredNames hc)] at hcount
    simpa [pick'] using hcount
  · have hconform := hall _ sameLabels_picked
      (passes_picked h fun m hm q => hpick m.types q (h.counts m hm q))
    exact fun left right => hconform.disjoint (pickedNode o.schema pick n) (hmem pick) left right

/-- Whatever the values of properties, a clean report means that instances conform, exactly if the
labels, edges or axioms alone fail a check, or the labels of every node imply what they inherit. -/
theorem clean_instances_iff [DebugEscapes] (order : KeyOrder) (o : Ontology) :
    (∀ o', SameLabels o o' → (validate order o').isClean = true → InstancesConform o') ↔
      (LabelsPass o → ∀ n ∈ o.nodes.vals, Imply o n.types) := by
  simp only [validate_clean]
  constructor
  · intro hall h n hn
    exact imply_of_instancesConform h hall hn
  · intro h o' hsame hpass
    have hlabels := hsame.symm.labelsPass (passes_iff.mp hpass).1
    refine instancesConform_of_imply hpass fun n' hn' => ?_
    obtain ⟨n, hn, htypes⟩ := hsame.symm.exists_mem hn'
    obtain ⟨hcounts, hdisjoint⟩ := h hlabels n hn
    rw [← htypes]
    constructor
    · rw [hsame.schema]
      exact hcounts
    · intro left right hstated
      rw [hsame.schema]
      exact hdisjoint left right (hsame.states.mp hstated)

/-- A person without the name that every agent has. -/
private def nameless : Ontology :=
  let name : PropertyType := ⟨"name", .string, .one, none, none⟩
  let schema := (Schema.empty.declareNodeType { NodeType.new "Agent" with properties := [name] }
    ).declareNodeType { NodeType.new "Person" with supertypes := ["Agent"] }
  { Ontology.empty with schema }.upsertNode ⟨.filled 1, none, ["Person"], ∅⟩

/-- The report on a person without a name is clean, though each agent has one. -/
theorem nameless_person_clean :
    (@validate DebugEscapes.plain .sorted nameless).isClean = true ∧
    ¬InstancesConform nameless := by
  refine ⟨by decide +kernel, fun h => ?_⟩
  have hchain : "Agent" ∈ nameless.schema.supertypesOf "Person" := by decide +kernel
  have hmem : (⟨.filled 1, none, ["Person"], ∅⟩ : Node) ∈ nameless.nodes.vals :=
    BTreeMap.mem_vals_singleton.mpr rfl
  have hagent : nameless.schema.nodeTypes["Agent"]? =
      some ⟨"Agent", none, [], [⟨"name", .string, .one, none, none⟩], none⟩ := by decide +kernel
  have hcount := h.counts _ hmem "Agent"
    ⟨"Person", List.mem_cons_self, Schema.mem_supertypesOf.mp hchain⟩ _ hagent _ List.mem_cons_self
  exact absurd hcount (by decide +kernel)

/-- The targets of the edges of a label from a node, each once. -/
def targets (o : Ontology) (label : String) (id : NodeId) : List NodeId :=
  ((o.edges.vals.filter fun e => e.label = label ∧ e.source = id).map Edge.target).dedup

/-- Two ontologies that differ in their edges, and in nothing that is checked otherwise. -/
structure SameNodes (o o' : Ontology) : Prop where
  schema : o'.schema = o.schema
  axioms : o'.axioms = o.axioms
  nodes : o'.nodes = o.nodes

/-- Both state the same axioms. -/
theorem SameNodes.states {o o' : Ontology} (h : SameNodes o o') {kind : AxiomKind} :
    States o' kind ↔ States o kind := by
  rw [States, States, h.axioms]

/-- The same ends fit. -/
theorem SameNodes.fits {o o' : Ontology} (h : SameNodes o o') {allowed : List String} :
    Fits o' id allowed ↔ Fits o id allowed := by
  unfold Fits
  rw [h.schema, h.nodes]

/-- Having the same nodes is mutual. -/
theorem SameNodes.symm {o o' : Ontology} (h : SameNodes o o') : SameNodes o' o :=
  ⟨h.schema.symm, h.axioms.symm, h.nodes.symm⟩

end Conformance

end AtomrOntology
