import AtomrOntology.Shacl.RoundTrip

/-!
# Which schemas come back

A schema whose declared IRIs are plain comes back from its document, as long as the IRIs
of its edge blocks read back. They are made of names there, and a name that ends its term
early makes the document unreadable.
-/

namespace AtomrOntology

namespace Shacl

/-- An IRI without whitespace and `>`, outside the two namespaces. -/
structure PlainIri (iri : Iri) : Prop where
  chars : ∀ c ∈ iri.value.toList, isWhitespace c = false ∧ c ≠ '>'
  notShacl : ¬shUri.toList <+: iri.value.toList
  notXsd : ¬xsdUri.toList <+: iri.value.toList

/-- A declaration has a plain IRI whose local name is its name. -/
def Explicit (iri : Option Iri) (name : String) : Prop :=
  ∃ i, iri = some i ∧ PlainIri i ∧ localName i = name

/-- All node types and their properties are declared explicitly, and none holds JSON. -/
def ExplicitSchema (schema : Schema) : Prop :=
  ∀ ty ∈ schema.nodeTypes.vals, Explicit ty.iri ty.name ∧
    ∀ prop ∈ ty.properties, Explicit prop.iri prop.name ∧ prop.datatype ≠ .json

/-- What is printed of the edge types that leave a node type reads back. -/
def EdgesReadable (schema : Schema) : Prop :=
  ∀ edge ∈ schema.edgeTypes.vals, (∃ ty ∈ schema.nodeTypes.vals, ty.name ∈ edge.domain) →
    Readable (edgePathIri edge) ∧ ∀ target ∈ edge.range, Readable (targetIri schema target)

/-- The document of a schema is read to the same node types, up to supertypes and
descriptions. -/
def RoundTrips (schema : Schema) : Prop :=
  ∃ read, fromShaclTurtle (toShaclTurtle schema) = .ok read ∧
    read.nodeTypes.KeyedBy NodeType.name ∧
    ∀ ty, ty ∈ read.nodeTypes.vals ↔ ∃ ty' ∈ schema.nodeTypes.vals, ty = projected ty'

/-- An IRI outside the namespace has no local name in it. -/
theorem simpleLocal_eq_none {uri : String} {iri : Iri} (h : ¬uri.toList <+: iri.value.toList) :
    simpleLocal uri iri = none := by
  rw [simpleLocal, stripPrefix, if_neg h]
  rfl

/-- Outside the namespaces only a `>` ends a term early. -/
theorem readable_of_not_prefix {iri : Iri} (hsh : ¬shUri.toList <+: iri.value.toList)
    (hxsd : ¬xsdUri.toList <+: iri.value.toList) (hclose : '>' ∉ iri.value.toList) :
    Readable iri := by
  unfold Readable
  rw [simpleLocal_eq_none hsh, simpleLocal_eq_none hxsd]
  exact hclose

/-- Plain IRIs can be read. -/
theorem PlainIri.readable {iri : Iri} (h : PlainIri iri) : Readable iri :=
  readable_of_not_prefix h.notShacl h.notXsd fun hmem => (h.chars _ hmem).2 rfl

/-- A suffix without `#` does not complete a namespace that ends in `#`. -/
theorem not_prefix_append {ns v suffix : List Char} (hlast : ns.getLast? = some '#')
    (hsuffix : '#' ∉ suffix) (h : ¬ns <+: v) : ¬ns <+: v ++ suffix := by
  intro hns
  rcases List.prefix_or_prefix_of_prefix hns (List.prefix_append v suffix) with hv | ⟨w, hw⟩
  · exact h hv
  · subst hw
    have hsub : w <+: suffix := (List.prefix_append_right_inj v).mp hns
    cases hw : w.getLast? with
    | none =>
      rw [List.getLast?_eq_none_iff.mp hw, List.append_nil] at h
      exact h (List.prefix_refl v)
    | some c =>
      rw [List.getLast?_append, hw, Option.some_or, Option.some.injEq] at hlast
      exact hsuffix (hsub.subset (hlast ▸ List.mem_of_getLast? hw))

/-- So can the IRIs of their shapes. -/
theorem readable_shapeIriFor {ty : NodeType} (h : PlainIri (typeIri ty)) :
    Readable (shapeIriFor ty) := by
  have htext : (shapeIriFor ty).value.toList = (typeIri ty).value.toList ++ "Shape".toList :=
    String.toList_append
  apply readable_of_not_prefix
  · rw [htext]
    exact not_prefix_append (by simp [shUri]) (by simp) h.notShacl
  · rw [htext]
    exact not_prefix_append (by simp [xsdUri]) (by simp) h.notXsd
  · rw [htext, List.mem_append, not_or]
    exact ⟨fun hmem => (h.chars _ hmem).2 rfl, by simp⟩

/-- An explicit IRI is plain, whatever it would default to. -/
theorem Explicit.getD {iri : Option Iri} {name : String} (h : Explicit iri name) (d : Iri) :
    PlainIri (iri.getD d) := by
  obtain ⟨i, rfl, hplain, -⟩ := h
  exact hplain

/-- The types of an explicit schema are faithful. -/
theorem ExplicitSchema.faithful {schema : Schema} (h : ExplicitSchema schema) {ty : NodeType}
    (hty : ty ∈ schema.nodeTypes.vals) : FaithfulType ty := by
  obtain ⟨⟨i, hiri, -, hname⟩, hproperties⟩ := h ty hty
  refine ⟨⟨i, hiri, hname⟩, ?_⟩
  intro prop hprop
  obtain ⟨⟨j, hiri', -, hname'⟩, hdatatype⟩ := hproperties prop hprop
  exact ⟨⟨j, hiri', hname'⟩, hdatatype⟩

/-- Whatever an explicit schema prints of its blocks reads back, if its edges do. -/
theorem ExplicitSchema.prints {schema : Schema} (h : ExplicitSchema schema)
    (hedges : EdgesReadable schema) {ty : NodeType} (hty : ty ∈ schema.nodeTypes.vals) {b : Block}
    (hb : b ∈ blocksOf schema ty) : b.Prints schema := by
  rcases List.mem_append.mp hb with hb | hb
  · obtain ⟨prop, hprop, rfl⟩ := List.mem_map.mp hb
    exact (((h ty hty).2 prop hprop).1.getD _).readable
  · obtain ⟨edge, hedge, rfl⟩ := List.mem_map.mp hb
    obtain ⟨hedge, hdomain⟩ := List.mem_filter.mp hedge
    exact hedges edge hedge ⟨ty, hty, of_decide_eq_true hdomain⟩

/-- An explicit schema with readable edge blocks comes back from its SHACL document. -/
theorem roundTrips_of_edgesReadable (schema : Schema) (h : ExplicitSchema schema)
    (hnames : (schema.nodeTypes.vals.map NodeType.name).Nodup) (hedges : EdgesReadable schema) :
    RoundTrips schema := by
  have hparse := parse_toShaclTurtle schema fun ty hty =>
    ⟨readable_shapeIriFor ((h ty hty).1.getD _), ((h ty hty).1.getD _).readable,
      fun b hb => h.prints hedges hty hb⟩
  obtain ⟨read, hread, hkeyed, hmem⟩ := buildSchema_statements schema
    (fun ty hty => h.faithful hty) hnames
  refine ⟨read, ?_, hkeyed, hmem⟩
  rw [fromShaclTurtle, hparse]
  exact hread

/-- A person with a name. -/
def person : NodeType :=
  { NodeType.new "Person" with
    iri := some ⟨"urn:Person"⟩
    properties := [⟨"name", .string, .one, some ⟨"urn:name"⟩, none⟩] }

/-- A schema with one edge type between persons. -/
def personSchema (edge : String) : Schema :=
  (Schema.empty.declareNodeType person).declareEdgeType
    { EdgeType.new edge with domain := ["Person"], range := ["Person"] }

/-- Its only node type. -/
theorem mem_nodeTypes_personSchema {edge : String} {ty : NodeType} :
    ty ∈ (personSchema edge).nodeTypes.vals ↔ ty = person := BTreeMap.mem_vals_singleton

/-- Its only edge type. -/
theorem mem_edgeTypes_personSchema {name : String} {edge : EdgeType} :
    edge ∈ (personSchema name).edgeTypes.vals ↔
      edge = { EdgeType.new name with domain := ["Person"], range := ["Person"] } :=
  BTreeMap.mem_vals_singleton

private theorem plain_examples : PlainIri ⟨"urn:Person"⟩ ∧
    PlainIri ⟨"urn:name"⟩ := by
  refine ⟨⟨?_, ?_, ?_⟩, ?_, ?_, ?_⟩
  all_goals simp [isWhitespace, shUri, xsdUri]

/-- All its IRIs are explicit. -/
theorem explicit_personSchema (edge : String) : ExplicitSchema (personSchema edge) := by
  intro ty hty
  rw [mem_nodeTypes_personSchema.mp hty]
  refine ⟨⟨_, rfl, plain_examples.1, by decide +kernel⟩, ?_⟩
  intro prop hprop
  rw [List.mem_singleton.mp hprop]
  exact ⟨⟨_, rfl, plain_examples.2, by decide +kernel⟩, by decide⟩

/-- So it survives a round trip. -/
theorem roundTrips_personSchema : RoundTrips (personSchema "knows") := by
  refine roundTrips_of_edgesReadable _ (explicit_personSchema _) ?_ ?_
  · have hkeyed : (personSchema "knows").nodeTypes.KeyedBy NodeType.name :=
      (BTreeMap.KeyedBy.empty _).insert person
    rw [hkeyed.map_key_vals]
    exact Std.ExtTreeMap.nodup_keys
  · intro edge hedge _
    rw [mem_edgeTypes_personSchema.mp hedge]
    refine ⟨?_, ?_⟩
    · apply readable_of_not_prefix <;> simp [edgePathIri, EdgeType.new, fallbackIri, shUri, xsdUri]
    · intro target ht
      have htarget : targetIri (personSchema "knows") target = ⟨"urn:Person"⟩ := by
        rw [List.mem_singleton.mp ht]
        decide +kernel
      rw [htarget]
      exact plain_examples.1.readable

/-- The name of an edge type is written into an IRI as it is, and a `>` in it ends the
IRI: what is left of the name is not Turtle. -/
theorem edge_name_breaks_document :
    ExplicitSchema (personSchema "a>b") ∧ ¬RoundTrips (personSchema "a>b") := by
  refine ⟨explicit_personSchema _, ?_⟩
  rintro ⟨read, hread, -⟩
  have hfails : (Turtle.parse (pushPrefix shPrefix shUri ++ pushPrefix xsdPrefix xsdUri ++
      '\n' :: emitNodeTypes (personSchema "a>b") 0 (personSchema "a>b").nodeTypes.vals)).isOk =
      false := by
    decide +kernel
  rw [fromShaclTurtle, toShaclTurtle, String.toList_ofList] at hread
  cases hparse : Turtle.parse (pushPrefix shPrefix shUri ++ pushPrefix xsdPrefix xsdUri ++
      '\n' :: emitNodeTypes (personSchema "a>b") 0 (personSchema "a>b").nodeTypes.vals) with
  | error e =>
    rw [hparse] at hread
    cases hread
  | ok triples =>
    rw [hparse] at hfails
    cases hfails

end Shacl

end AtomrOntology
