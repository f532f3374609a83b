import AtomrOntology.Core.DebugText
import AtomrOntology.Graph.Ontology
import AtomrOntology.Graph.Supertypes

/-!
# Shapes

Validation reports, and the checks of an ontology against its schema: the properties that the
labels of a node declare, and the domain and range of edges.
-/

namespace AtomrOntology

/-- Severity classification. -/
inductive Severity where
  | info
  | warning
  | error
deriving DecidableEq, Repr

/-- One validation finding. -/
structure ValidationFinding where
  severity : Severity
  code : String
  message : String
  focus : Option String
deriving DecidableEq, Repr

namespace ValidationFinding

/-- Build an error. -/
def error (code message : String) : ValidationFinding := ⟨.error, code, message, none⟩

/-- Build a warning. -/
def warning (code message : String) : ValidationFinding := ⟨.warning, code, message, none⟩

/-- Attach a focus pointer. -/
def focusOn (f : ValidationFinding) (focus : String) : ValidationFinding :=
  { f with focus := some focus }

end ValidationFinding

/-- Aggregate report. -/
structure ValidationReport where
  findings : List ValidationFinding
deriving DecidableEq, Repr

namespace ValidationReport

/-- Append another report. -/
def extend (r other : ValidationReport) : ValidationReport := ⟨r.findings ++ other.findings⟩

/-- True when there are no errors. -/
def isClean (r : ValidationReport) : Bool := !r.findings.any fun f => f.severity = .error

/-- A report is clean if no finding is an error. -/
theorem isClean_iff {r : ValidationReport} :
    r.isClean = true ↔ ∀ f ∈ r.findings, f.severity ≠ .error := by
  simp [isClean]

end ValidationReport

/-- `value_matches_datatype`. -/
def PropertyValue.matchesDatatype : PropertyValue → Datatype → Bool
  | .string _, .string => true
  | .integer _, .integer => true
  | .float _, .float => true
  | .bool _, .bool => true
  | .dateTime _, .dateTime => true
  | .iri _, .iri => true
  | .bytes _, .bytes => true
  | .json _, .json => true
  | .null, _ => true
  | _, _ => false

/-- The name of a datatype, as `{:?}` prints it. -/
def Datatype.debug : Datatype → String
  | .string => "String"
  | .integer => "Integer"
  | .float => "Float"
  | .bool => "Bool"
  | .dateTime => "DateTime"
  | .iri => "Iri"
  | .bytes => "Bytes"
  | .json => "Json"

/-- The bounds as a finding shows them. -/
def Cardinality.text (c : Cardinality) : String :=
  toString c.min.toNat ++ ".." ++ match c.max with
    | some n => toString n.toNat
    | none => "*"

/-- How many values a node has for a property. -/
def Node.valueCount (n : Node) (name : String) : UInt32 :=
  match n.properties[name]? with
  | some _ => 1
  | none => 0

namespace Shapes

/-- The number of values of a property. -/
def cardinalityFindings (node : Node) (prop : PropertyType) : List ValidationFinding :=
  let count := node.valueCount prop.name
  if prop.cardinality.contains count then []
  else [(ValidationFinding.error "cardinality.violation" ("node " ++ node.id.toHex ++ " has " ++
    toString count.toNat ++ " value(s) for property `" ++ prop.name ++ "` (cardinality " ++
    prop.cardinality.text ++ ")")).focusOn node.id.toHex]

/-- The datatype of a property. -/
def datatypeFindings (node : Node) (prop : PropertyType) : List ValidationFinding :=
  match node.properties[prop.name]? with
  | some value =>
    if value.matchesDatatype prop.datatype then []
    else [(ValidationFinding.warning "datatype.mismatch" ("node " ++ node.id.toHex ++
      " property `" ++ prop.name ++ "` has value not matching declared datatype " ++
      prop.datatype.debug)).focusOn node.id.toHex]
  | none => []

/-- What a property that a label declares finds at a node. -/
def propertyFindings (node : Node) (prop : PropertyType) : List ValidationFinding :=
  cardinalityFindings node prop ++ datatypeFindings node prop

/-- What the labels of a node find. -/
def nodeFindings (schema : Schema) (node : Node) : List ValidationFinding :=
  node.types.flatMap fun typeName =>
    match schema.nodeTypes[typeName]? with
    | some nt => nt.properties.flatMap (propertyFindings node)
    | none => []

/-- `type_in_chain`. -/
def typeInChain (schema : Schema) (node : Node) (allowed : List String) : Bool :=
  node.types.any fun ty => (schema.supertypesOf ty).any fun n => allowed.any (· == n)

variable [DebugEscapes]

/-- What an end of an edge finds that has to be of one of some types. Without types, or without
a stored node, nothing is checked. -/
def endFindings (o : Ontology) (code place rule : String) (edge : Edge) (id : NodeId)
    (allowed : List String) : List ValidationFinding :=
  if allowed.isEmpty then []
  else match o.nodes[id]? with
    | some node =>
      if typeInChain o.schema node allowed then []
      else [(ValidationFinding.error code ("edge " ++ edge.id.toHex ++ " " ++ place ++ " " ++
        id.toHex ++ " does not satisfy " ++ rule ++ " " ++ Debug.strings allowed)).focusOn
          edge.id.toHex]
    | none => []

def domainFindings (o : Ontology) (edge : Edge) (et : EdgeType) : List ValidationFinding :=
  endFindings o "edge.domain" "source" "domain" edge edge.source et.domain

def rangeFindings (o : Ontology) (edge : Edge) (et : EdgeType) : List ValidationFinding :=
  endFindings o "edge.range" "target" "range" edge edge.target et.range

/-- What an edge finds; nothing if its label is not declared. -/
def edgeFindings (o : Ontology) (edge : Edge) : List ValidationFinding :=
  match o.schema.edgeTypes[edge.label]? with
  | some et => domainFindings o edge et ++ rangeFindings o edge et
  | none => []

end Shapes

/-- Check shape constraints against the schema. -/
def checkShapes [DebugEscapes] (o : Ontology) : ValidationReport :=
  ⟨o.nodes.vals.flatMap (Shapes.nodeFindings o.schema) ++
    o.edges.vals.flatMap (Shapes.edgeFindings o)⟩

namespace Shapes

variable {o : Ontology} {node : Node} {schema : Schema} {allowed : List String}

/-- The declared number of values. -/
def Counts (node : Node) (ty : NodeType) : Prop :=
  ∀ prop ∈ ty.properties, prop.cardinality.contains (node.valueCount prop.name) = true

/-- A datatype is never more than a warning. -/
theorem severity_datatypeFindings {prop : PropertyType} :
    ∀ f ∈ datatypeFindings node prop, f.severity ≠ .error := by
  intro f hf
  unfold datatypeFindings at hf
  split at hf
  · split at hf
    · cases hf
    · obtain rfl := List.mem_singleton.mp hf
      exact nofun
  · cases hf

/-- A property passes if its cardinality allows the number of values. -/
theorem propertyFindings_clean {prop : PropertyType} :
    (∀ f ∈ propertyFindings node prop, f.severity ≠ .error) ↔
      prop.cardinality.contains (node.valueCount prop.name) = true := by
  rw [propertyFindings, List.forall_mem_append, and_iff_left severity_datatypeFindings,
    cardinalityFindings]
  split
  · next h => exact iff_of_true (by simp) h
  · next h =>
    refine iff_of_false (fun hclean => ?_) h
    exact hclean _ List.mem_cons_self rfl

/-- The labels of a node find no error if it has the numbers of values that they declare. -/
theorem nodeFindings_clean : (∀ f ∈ nodeFindings schema node, f.severity ≠ .error) ↔
    ∀ t ∈ node.types, ∀ ty, schema.nodeTypes[t]? = some ty → Counts node ty := by
  simp only [nodeFindings, List.mem_flatMap, forall_exists_index, and_imp]
  constructor
  · intro h t ht ty hty prop hprop
    refine propertyFindings_clean.mp fun f hf => h f t ht ?_
    rw [hty]
    exact List.mem_flatMap.mpr ⟨prop, hprop, hf⟩
  · intro h f t ht hf
    split at hf
    · next ty hty =>
      obtain ⟨prop, hprop, hf⟩ := List.mem_flatMap.mp hf
      exact propertyFindings_clean.mpr (h t ht ty hty prop hprop) f hf
    · cases hf

/-- A node fits if it has an allowed type or a subtype of one. -/
theorem typeInChain_iff : typeInChain schema node allowed = true ↔
    ∃ t ∈ node.types, ∃ a ∈ allowed, schema.SubtypeOf t a := by
  simp only [typeInChain, List.any_eq_true, beq_iff_eq, Schema.mem_supertypesOf]
  constructor
  · intro h
    obtain ⟨t, ht, a, hsub, a', ha, rfl⟩ := h
    exact ⟨t, ht, a', ha, hsub⟩
  · intro h
    obtain ⟨t, ht, a, ha, hsub⟩ := h
    exact ⟨t, ht, a, hsub, a, ha, rfl⟩

/-- The node of an end, if it is stored, has one of the types or a subtype of one. -/
def Fits (o : Ontology) (id : NodeId) (allowed : List String) : Prop :=
  allowed ≠ [] → ∀ node, o.nodes[id]? = some node →
    ∃ t ∈ node.types, ∃ a ∈ allowed, o.schema.SubtypeOf t a

/-- An end of an edge passes if it fits. -/
theorem endFindings_clean [DebugEscapes] {code place rule : String} {edge : Edge} {id : NodeId} :
    (∀ f ∈ endFindings o code place rule edge id allowed, f.severity ≠ .error) ↔
      Fits o id allowed := by
  unfold endFindings Fits
  split
  · next h => simp [List.isEmpty_iff.mp h]
  · next h =>
    have hne : allowed ≠ [] := fun hnil => h (List.isEmpty_iff.mpr hnil)
    split
    · next node hnode =>
      have hfits : (allowed ≠ [] → ∀ n, o.nodes[id]? = some n →
          ∃ t ∈ n.types, ∃ a ∈ allowed, o.schema.SubtypeOf t a) ↔
            typeInChain o.schema node allowed = true := by
        rw [typeInChain_iff, hnode]
        simp [hne]
      rw [hfits]
      split
      · next hchain => exact iff_of_true (by simp) hchain
      · next hchain =>
        refine iff_of_false (fun hclean => ?_) hchain
        exact hclean _ List.mem_cons_self rfl
    · next hnode => simp [hnode]

/-- An edge finds no error if its ends fit the domain and the range of its type. -/
theorem edgeFindings_clean [DebugEscapes] {edge : Edge} :
    (∀ f ∈ edgeFindings o edge, f.severity ≠ .error) ↔
      ∀ et, o.schema.edgeTypes[edge.label]? = some et →
        Fits o edge.source et.domain ∧ Fits o edge.target et.range := by
  unfold edgeFindings
  split
  · next et het =>
    simp only [het, Option.some.injEq, forall_eq']
    rw [List.forall_mem_append, domainFindings, rangeFindings, endFindings_clean,
      endFindings_clean]
  · next hnone => simp [hnone]

end Shapes

open Shapes in
/-- No shape check fails exactly if values are as many as own labels allow and edges fit. -/
theorem checkShapes_clean [DebugEscapes] {o : Ontology} : (checkShapes o).isClean = true ↔
    (∀ n ∈ o.nodes.vals, ∀ t ∈ n.types, ∀ ty, o.schema.nodeTypes[t]? = some ty → Counts n ty) ∧
    ∀ e ∈ o.edges.vals, ∀ et, o.schema.edgeTypes[e.label]? = some et →
      Fits o e.source et.domain ∧ Fits o e.target et.range := by
  rw [ValidationReport.isClean_iff, checkShapes, List.forall_mem_append]
  simp only [List.mem_flatMap, forall_exists_index, and_imp]
  refine and_congr ?_ ?_
  · constructor
    · exact fun h n hn => nodeFindings_clean.mp fun f hf => h f n hn hf
    · exact fun h f n hn hf => nodeFindings_clean.mpr (h n hn) f hf
  · constructor
    · exact fun h e he => edgeFindings_clean.mp fun f hf => h f e he hf
    · exact fun h f e he hf => edgeFindings_clean.mpr (h e he) f hf

end AtomrOntology
