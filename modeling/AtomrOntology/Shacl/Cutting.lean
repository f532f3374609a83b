import AtomrOntology.Rdf.Dangling
import AtomrOntology.Shacl.Normalization

/-!
# Which schemas normalize?

An IRI in one of the two namespaces is written after a prefix, and a mark in its local name
cuts it. What is left of the name makes the document unreadable, except after a comma, where
it may pass for another object.
-/

namespace AtomrOntology

namespace Shacl

/-- A text without whitespace and angle brackets. -/
def PlainText (text : String) : Prop :=
  ∀ c ∈ text.toList, isWhitespace c = false ∧ c ≠ '<' ∧ c ≠ '>'

/-- A schema with plain names and IRIs. -/
structure PlainSchema (schema : Schema) : Prop where
  nodeTypes : ∀ ty ∈ schema.nodeTypes.vals,
    PlainText ty.name ∧ (∀ i, ty.iri = some i → PlainText i.value) ∧
      ∀ prop ∈ ty.properties, PlainText prop.name ∧ ∀ i, prop.iri = some i → PlainText i.value
  edgeTypes : ∀ ty ∈ schema.edgeTypes.vals,
    PlainText ty.name ∧ (∀ i, ty.iri = some i → PlainText i.value) ∧
      ∀ target ∈ ty.range, PlainText target

/-- A plain IRI or the fallback for a plain name is plain. -/
theorem PlainText.getD {iri : Option Iri} {name : String} (hname : PlainText name)
    (hiri : ∀ i, iri = some i → PlainText i.value) :
    PlainText (iri.getD (fallbackIri name)).value := by
  cases iri with
  | some i => exact hiri i rfl
  | none =>
    have hfallback : PlainText "urn:atomr:shacl:" := by
      simp [PlainText, isWhitespace]
    intro c hc
    rw [Option.getD_none, fallbackIri, String.toList_append] at hc
    rcases List.mem_append.mp hc with hc | hc
    · exact hfallback c hc
    · exact hname c hc

/-- The IRIs of a block that its schema chooses. -/
def Block.iris (schema : Schema) : Block → List Iri
  | .property prop => [propertyPathIri prop]
  | .edge e => edgePathIri e :: e.range.map (targetIri schema)

/-- A block is printed so that it can be read if its IRIs can. -/
theorem Block.prints_iff {schema : Schema} {b : Block} :
    b.Prints schema ↔ ∀ i ∈ b.iris schema, Readable i := by
  cases b <;> simp [Block.Prints, Block.iris]

/-- The IRIs of the blocks of a plain schema are plain. -/
theorem PlainSchema.block {schema : Schema} (h : PlainSchema schema) {ty : NodeType}
    (hty : ty ∈ schema.nodeTypes.vals) {b : Block} (hb : b ∈ blocksOf schema ty) {i : Iri}
    (hi : i ∈ b.iris schema) : PlainText i.value := by
  rcases List.mem_append.mp hb with hb | hb
  · obtain ⟨prop, hprop, rfl⟩ := List.mem_map.mp hb
    rw [List.mem_singleton.mp hi]
    obtain ⟨hname, hiri⟩ := (h.nodeTypes ty hty).2.2 prop hprop
    exact .getD hname hiri
  · obtain ⟨edge, hedge, rfl⟩ := List.mem_map.mp hb
    obtain ⟨hname, hiri, hrange⟩ := h.edgeTypes edge (List.mem_filter.mp hedge).1
    rcases List.mem_cons.mp hi with rfl | hi
    · exact .getD hname hiri
    · obtain ⟨target, htarget, rfl⟩ := List.mem_map.mp hi
      refine .getD (hrange target htarget) ?_
      intro j hj
      obtain ⟨ty', hget, hiri'⟩ := Option.bind_eq_some_iff.mp hj
      exact (h.nodeTypes ty' (BTreeMap.mem_vals.mpr ⟨target, hget⟩)).2.1 j hiri'

/-- A prefixed name with a mark in it is cut there. -/
theorem cuts_curie (first : Char) (pre : List Char) {base : Iri} {loc : List Char}
    (hfirst : first ≠ '<' ∧ first ≠ '_' ∧ first ≠ '#' ∧ first ≠ '"')
    (hcolon : ':' ∉ first :: pre) (hpre : ∀ c ∈ first :: pre, Turtle.endsToken c = false)
    (hbase : vocabulary.namespaces[String.ofList (first :: pre)]? = some base)
    (hplain : ∀ c ∈ loc, isWhitespace c = false) (hsimple : isSimpleLocal loc = true)
    (h : ¬∀ c ∈ loc, Turtle.endsToken c = false) :
    ∃ q ∈ loc, Turtle.Cuts vocabulary q (first :: pre ++ ':' :: loc) := by
  cases hfind : loc.find? Turtle.endsToken with
  | none =>
    refine absurd ?_ h
    intro c hc
    exact eq_false_of_ne_true (List.find?_eq_none.mp hfind c hc)
  | some q =>
    obtain ⟨hends, l, word, rfl, hl⟩ := List.find?_eq_some_iff_append.mp hfind
    have hq := hplain q (List.mem_append_right l List.mem_cons_self)
    have hws : isWhitespace first = false := by
      have hends := hpre first List.mem_cons_self
      simp only [Turtle.endsToken, Bool.or_eq_false_iff] at hends
      exact hends.1.1.1
    refine ⟨q, List.mem_append_right l List.mem_cons_self, ⟨⟨first, rfl, hws, hfirst.2.2.1⟩, ?_, ?_,
      ⟨base.value ++ .ofList l⟩, word, ?_, ?_⟩⟩
    · simpa using hfirst.2.2.2
    · simpa [Turtle.endsToken, hq, or_assoc] using hends
    · intro c hc
      have hmem := List.mem_append_right l (List.mem_cons_of_mem q hc)
      obtain ⟨-, -, hhash, hopen, -⟩ := (isSimpleLocal_iff.mp hsimple).2 c hmem
      simp [Turtle.inWord, hplain c hmem, hhash, hopen]
    · intro rest
      have htext : first :: pre ++ ':' :: (l ++ q :: word) ++ rest =
          first :: pre ++ ':' :: l ++ q :: (word ++ rest) := by
        simp
      rw [htext]
      refine Turtle.parseTerm_curie first pre ⟨hfirst.1, hfirst.2.1⟩ hcolon hpre hbase ?_ ?_
      · intro c hc
        simpa using hl c hc
      · intro c hc
        cases hc
        simp [hends]

/-- An unreadable IRI is cut at one of its characters. -/
theorem cuts_pushIriTerm {iri : Iri} (hplain : PlainText iri.value) (h : ¬Readable iri) :
    ∃ q ∈ iri.value.toList, Turtle.Cuts vocabulary q (pushIriTerm iri) := by
  have hmem : ∀ {uri : String} {loc : List Char}, simpleLocal uri iri = some loc →
      isSimpleLocal loc = true ∧ ∀ c ∈ loc, c ∈ iri.value.toList := by
    intro uri loc hloc
    obtain ⟨htext, hsimple⟩ := simpleLocal_eq_some.mp hloc
    refine ⟨hsimple, ?_⟩
    intro c hc
    rw [htext, String.toList_append, String.toList_ofList]
    exact List.mem_append_right _ hc
  unfold Readable at h
  unfold pushIriTerm
  cases hsh : simpleLocal shUri iri with
  | some loc =>
    obtain ⟨hsimple, hsub⟩ := hmem hsh
    rw [hsh] at h
    obtain ⟨q, hq, hcuts⟩ := cuts_curie 's' ['h'] (by decide) (by decide)
      (by simp [Turtle.endsToken, isWhitespace]) vocabulary_sh
      (fun c hc => (hplain c (hsub c hc)).1) hsimple h
    exact ⟨q, hsub q hq, hcuts⟩
  | none =>
    rw [hsh] at h
    dsimp only at h ⊢
    cases hxsd : simpleLocal xsdUri iri with
    | some loc =>
      obtain ⟨hsimple, hsub⟩ := hmem hxsd
      rw [hxsd] at h
      obtain ⟨q, hq, hcuts⟩ := cuts_curie 'x' ['s', 'd'] (by decide) (by decide)
        (by simp [Turtle.endsToken, isWhitespace]) vocabulary_xsd
        (fun c hc => (hplain c (hsub c hc)).1) hsimple h
      exact ⟨q, hsub q hq, hcuts⟩
    | none =>
      rw [hxsd] at h
      exact absurd (fun hclose => (hplain '>' hclose).2.2 rfl) h

/-- If not all members are good, there is a first bad one. -/
theorem List.exists_first {α : Type} {P : α → Prop} {l : List α} (h : ¬∀ a ∈ l, P a) :
    ∃ l₁ a l₂, l = l₁ ++ a :: l₂ ∧ (∀ b ∈ l₁, P b) ∧ ¬P a := by
  induction l with
  | nil => simp at h
  | cons b l ih =>
    by_cases hb : P b
    · obtain ⟨l₁, a, l₂, rfl, hl, ha⟩ := ih fun hl => h (List.forall_mem_cons.mpr ⟨hb, hl⟩)
      exact ⟨b :: l₁, a, l₂, rfl, List.forall_mem_cons.mpr ⟨hb, hl⟩, ha⟩
    · exact ⟨[], b, l, rfl, by simp, hb⟩

/-- A type whose IRI is cut has no shape. -/
theorem emitNodeShape_ne {ty : NodeType} (hplain : PlainText (typeIri ty).value)
    (h : ¬Readable (typeIri ty)) (labels : List (List Char)) (rest : List Char)
    (triples : List Triple) :
    Turtle.parseStatements vocabulary (emitNodeShape ty labels ++ rest) ≠ .ok triples := by
  have hshape : PlainText (shapeIriFor ty).value := by
    have hsuffix : PlainText "Shape" := by
      simp [PlainText, isWhitespace]
    intro c hc
    rw [shapeIriFor, String.toList_append] at hc
    exact (List.mem_append.mp hc).elim (hplain c) (hsuffix c)
  obtain ⟨q, -, hcuts⟩ := cuts_pushIriTerm hshape (mt readable_shapeIriFor_iff.mp h)
  rw [emitNodeShape]
  simp only [List.append_assoc]
  exact hcuts.parseStatements_ne _ triples

theorem markNext_end (rest : List Char) : Turtle.MarkNext (" .\n".toList ++ rest) :=
  ⟨'.', _, Or.inl rfl, rfl⟩

theorem markNext_pushClause (predicate : Iri) (object rest : List Char) :
    Turtle.MarkNext (pushClause predicate object ++ rest) :=
  ⟨';', _, Or.inr (Or.inl rfl), rfl⟩

/-- A block with an IRI that is cut, though not at a comma, is no statement. -/
theorem renderBlock_ne {schema : Schema} {b : Block}
    (hplain : ∀ i ∈ b.iris schema, PlainText i.value)
    (hcomma : ∀ i ∈ b.iris schema, ',' ∈ i.value.toList → Readable i) (h : ¬b.Prints schema)
    (n : Nat) (rest : List Char) (triples : List Triple) :
    Turtle.parseStatements vocabulary (renderBlock schema (nextBlank n) b ++ rest) ≠
      .ok triples := by
  have hcuts : ∀ i ∈ b.iris schema, ¬Readable i →
      ∃ q, q ≠ ',' ∧ Turtle.Cuts vocabulary q (pushIriTerm i) := by
    intro i hi hread
    obtain ⟨q, hq, hcuts⟩ := cuts_pushIriTerm (hplain i hi) hread
    refine ⟨q, ?_, hcuts⟩
    rintro rfl
    exact hread (hcomma i hi hq)
  have hpath := (reads_pushIriTerm (readable_terms "path" (by simp))).predicate
    (head_pushIriTerm _).1
  cases b with
  | property prop =>
    obtain ⟨q, hq, hcuts⟩ := hcuts (propertyPathIri prop) List.mem_cons_self h
    have hdatatype := markNext_pushClause (shaclIri "datatype")
      (pushIriTerm (xsdForDatatype prop.datatype)) (" .\n".toList ++ rest)
    have hmore := hdatatype.continues (continues_pushCardinality prop.cardinality)
    have hfirst := hcuts.first_ne hq (reads_label n) hpath hmore triples
    simp only [renderBlock, renderPropertyBlock, List.append_assoc, List.cons_append] at hfirst ⊢
    exact hfirst
  | edge edge =>
    by_cases hread : Readable (edgePathIri edge)
    · have htargets : ¬∀ target ∈ edge.range, Readable (targetIri schema target) :=
        fun htargets => h ⟨hread, htargets⟩
      obtain ⟨before, target, after, hrange, hbefore, htarget⟩ := List.exists_first htargets
      have hmem : target ∈ edge.range := by
        rw [hrange]
        exact List.mem_append_right _ List.mem_cons_self
      obtain ⟨q, hq, hcuts⟩ := hcuts _
        (List.mem_cons_of_mem _ (List.mem_map_of_mem hmem)) htarget
      have hkind := continues_pushClause (readable_terms "nodeKind" (by simp))
        (reads_object (readable_terms "IRI" (by simp)))
      have hclasses : Turtle.Continues vocabulary
          (before.flatMap fun target =>
            pushClause (shaclIri "class") (pushIriTerm (targetIri schema target)))
          (before.map fun target => (shaclIri "class", .iri (targetIri schema target))) :=
        .flatMap fun target ht => continues_pushClause (readable_terms "class" (by simp))
          (reads_object (hbefore target ht))
      have hbetween := (continues_pushCardinality edge.cardinality).append (hkind.append hclasses)
      have hclass := (reads_pushIriTerm (readable_terms "class" (by simp))).predicate
        (head_pushIriTerm _).1
      have hmore : Turtle.MarkNext ((after.flatMap fun target =>
          pushClause (shaclIri "class") (pushIriTerm (targetIri schema target))) ++
            (" .\n".toList ++ rest)) := by
        cases after with
        | nil => exact markNext_end rest
        | cons target after =>
          rw [List.flatMap_cons, List.append_assoc]
          exact markNext_pushClause _ _ _
      have hlater := hcuts.later_ne hq (reads_label n)
        (clauseOf "path" (readable_terms "path" (by simp)) (reads_object hread)) hbetween hclass
        hmore triples
      simp only [renderBlock, renderEdgeBlock, hrange, List.flatMap_append, List.flatMap_cons,
        clauseOf, Turtle.Clause.text, pushClause, List.append_assoc, List.cons_append] at hlater ⊢
      exact hlater
    · obtain ⟨q, hq, hcuts⟩ := hcuts (edgePathIri edge) List.mem_cons_self hread
      have hkind := markNext_pushClause (shaclIri "nodeKind") (pushIriTerm (shaclIri "IRI"))
        ((edge.range.flatMap fun target =>
          pushClause (shaclIri "class") (pushIriTerm (targetIri schema target))) ++
            (" .\n".toList ++ rest))
      have hmore := hkind.continues (continues_pushCardinality edge.cardinality)
      have hfirst := hcuts.first_ne hq (reads_label n) hpath hmore triples
      simp only [renderBlock, renderEdgeBlock, List.append_assoc, List.cons_append] at hfirst ⊢
      exact hfirst

/-- No block of a schema is cut at a comma. What follows a comma is the next object, so a
document can go on after it. -/
def NoCommaCut (schema : Schema) : Prop :=
  ∀ ty ∈ schema.nodeTypes.vals, ∀ b ∈ blocksOf schema ty, ∀ i ∈ b.iris schema,
    ',' ∈ i.value.toList → Readable i

/-- A document with something in it that is cut is rejected. -/
theorem emitNodeTypes_ne {schema : Schema} (hplain : PlainSchema schema)
    (hcomma : NoCommaCut schema) {types : List NodeType} (hsub : types ⊆ schema.nodeTypes.vals)
    (h : ¬∀ ty ∈ types, Readable (typeIri ty) ∧ ∀ b ∈ blocksOf schema ty, b.Prints schema)
    (counter : Nat) (triples : List Triple) :
    Turtle.parseStatements vocabulary (emitNodeTypes schema counter types) ≠ .ok triples := by
  induction types generalizing counter triples with
  | nil => simp at h
  | cons ty types ih =>
    rw [List.cons_subset] at hsub
    rw [emitNodeTypes, List.append_assoc]
    by_cases htype : Readable (typeIri ty)
    · have hshape := states_emitNodeShape (((blocksOf schema ty).zipIdx counter).map Prod.snd)
        (readable_shapeIriFor_iff.mpr htype) htype
      rw [List.map_map] at hshape
      refine hshape.parseStatements_ne (fun triples => ?_) triples
      have hstates : ∀ (bs : List (Block × Nat)), (∀ b ∈ bs, b.1.Prints schema) →
          Turtle.States vocabulary (bs.flatMap fun b => renderBlock schema (nextBlank b.2) b.1)
            (bs.flatMap fun b => (blockStatement schema b.2 b.1).triples) :=
        fun bs hbs => .flatMap fun b hb => states_renderBlock schema b.2 (hbs b hb)
      by_cases hblocks : ∀ b ∈ (blocksOf schema ty).zipIdx counter, b.1.Prints schema
      · have hrest : ¬∀ ty ∈ types, Readable (typeIri ty) ∧
            ∀ b ∈ blocksOf schema ty, b.Prints schema := by
          intro hall
          refine h (List.forall_mem_cons.mpr ⟨⟨htype, ?_⟩, hall⟩)
          intro b hb
          rw [← List.zipIdx_map_fst counter (blocksOf schema ty)] at hb
          obtain ⟨p, hp, rfl⟩ := List.mem_map.mp hb
          exact hblocks p hp
        refine (hstates _ hblocks).parseStatements_ne (fun triples => ?_) triples
        exact Turtle.States.newline.parseStatements_ne (ih hsub.2 hrest _) triples
      · obtain ⟨before, b, after, hsplit, hbefore, hb⟩ := List.exists_first hblocks
        have hmem : b.1 ∈ blocksOf schema ty := by
          have hb : b ∈ (blocksOf schema ty).zipIdx counter := by
            rw [hsplit]
            exact List.mem_append_right _ List.mem_cons_self
          exact List.fst_mem_of_mem_zipIdx hb
        rw [hsplit, List.flatMap_append, List.flatMap_cons, List.append_assoc, List.append_assoc]
        refine (hstates before hbefore).parseStatements_ne (fun triples => ?_) triples
        exact renderBlock_ne (fun i hi => hplain.block hsub.1 hmem hi)
          (hcomma ty hsub.1 b.1 hmem) hb b.2 _ triples
    · obtain ⟨hname, hiri, -⟩ := hplain.nodeTypes ty hsub.1
      exact emitNodeShape_ne (.getD hname hiri) htype _ _ triples

/-- Where no block is cut at a comma, everything in a document that is accepted reads back. -/
theorem PlainSchema.printsBack {schema read : Schema} (hplain : PlainSchema schema)
    (hcomma : NoCommaCut schema) (h : normalize schema = .ok read) : PrintsBack schema := by
  by_contra hprints
  rw [normalize, fromShaclTurtle, parse_document] at h
  cases hparse : Turtle.parseStatements vocabulary
      (emitNodeTypes schema 0 schema.nodeTypes.vals) with
  | error e =>
    rw [hparse] at h
    cases h
  | ok triples =>
    exact emitNodeTypes_ne hplain hcomma (List.Subset.refl _) hprints 0 triples hparse

/-- Normalizing a plain schema is idempotent where everything that is printed reads back,
and only there, unless a block is cut at a comma. -/
theorem normalizes_of_printsBack {schema : Schema} (hplain : PlainSchema schema) :
    (PrintsBack schema → Normalizes schema) ∧
      (NoCommaCut schema → Normalizes schema → PrintsBack schema) := by
  refine ⟨PrintsBack.normalizes, ?_⟩
  intro hcomma h
  obtain ⟨read, hread, -⟩ := h
  exact hplain.printsBack hcomma hread

private theorem plain_personSchema : PlainSchema (personSchema "knows") := by
  have htexts : ∀ text ∈ ["Person", "urn:Person", "name", "urn:name", "knows"], PlainText text := by
    simp [PlainText, isWhitespace]
  constructor
  · intro ty hty
    rw [mem_nodeTypes_personSchema.mp hty]
    refine ⟨htexts _ (by simp [person, NodeType.new]), ?_, ?_⟩
    · intro i hi
      cases hi
      exact htexts _ (by simp)
    · intro prop hprop
      rw [List.mem_singleton.mp hprop]
      refine ⟨htexts _ (by simp), ?_⟩
      intro i hi
      cases hi
      exact htexts _ (by simp)
  · intro edge hedge
    rw [mem_edgeTypes_personSchema.mp hedge]
    refine ⟨htexts _ (by simp [EdgeType.new]), ?_, ?_⟩
    · intro i hi
      cases hi
    · intro target htarget
      rw [List.mem_singleton.mp htarget]
      exact htexts _ (by simp)

private theorem printsBack_personSchema : PrintsBack (personSchema "knows") := by
  have hiris : ∀ i ∈ ["urn:Person", "urn:name", "urn:atomr:shacl:knows"], Readable ⟨i⟩ := by
    intro i hi
    apply readable_of_not_prefix
    all_goals
      revert i
      simp [shUri, xsdUri]
  intro ty hty
  rw [mem_nodeTypes_personSchema.mp hty]
  refine ⟨hiris "urn:Person" (by simp), ?_⟩
  intro b hb
  rcases List.mem_append.mp hb with hb | hb
  · obtain ⟨prop, hprop, rfl⟩ := List.mem_map.mp hb
    rw [List.mem_singleton.mp hprop]
    exact hiris "urn:name" (by simp)
  · obtain ⟨edge, hedge, rfl⟩ := List.mem_map.mp hb
    rw [mem_edgeTypes_personSchema.mp (List.mem_filter.mp hedge).1]
    refine ⟨hiris "urn:atomr:shacl:knows" (by simp), ?_⟩
    intro target htarget
    have htarget : targetIri (personSchema "knows") target = ⟨"urn:Person"⟩ := by
      rw [List.mem_singleton.mp htarget]
      decide +kernel
    rw [htarget]
    exact hiris "urn:Person" (by simp)

theorem normalizes_personSchema : Normalizes (personSchema "knows") ∧
    PrintsBack (personSchema "knows") := by
  have hnormalizes := (normalizes_of_printsBack plain_personSchema).1 printsBack_personSchema
  refine ⟨hnormalizes, (normalizes_of_printsBack plain_personSchema).2 ?_ hnormalizes⟩
  intro ty hty b hb i hi _
  exact Block.prints_iff.mp ((printsBack_personSchema ty hty).2 b hb) i hi

/-- A schema with one property, whose IRI is in the SHACL namespace and has a dot in it. -/
def dottedSchema : Schema :=
  Schema.empty.declareNodeType { person with
    properties := [⟨"a.b", .string, .one, some ⟨"http://www.w3.org/ns/shacl#a.b"⟩, none⟩] }

/-- The IRI is written `sh:a.b`, and the statement ends at the dot. -/
theorem dotted_name_breaks_normalization : PlainSchema dottedSchema ∧ ¬Normalizes dottedSchema := by
  have htypes : ∀ ty, ty ∈ dottedSchema.nodeTypes.vals ↔ ty = { person with
      properties := [⟨"a.b", .string, .one, some ⟨"http://www.w3.org/ns/shacl#a.b"⟩, none⟩] } :=
    fun ty => BTreeMap.mem_vals_singleton
  have hplain : PlainSchema dottedSchema := by
    have htexts : ∀ text ∈ ["Person", "urn:Person", "a.b", "http://www.w3.org/ns/shacl#a.b"],
        PlainText text := by
      simp [PlainText, isWhitespace]
    constructor
    · intro ty hty
      rw [(htypes ty).mp hty]
      refine ⟨htexts _ (by simp [person, NodeType.new]), ?_, ?_⟩
      · intro i hi
        cases hi
        exact htexts _ (by simp)
      · intro prop hprop
        rw [List.mem_singleton.mp hprop]
        refine ⟨htexts _ (by simp), ?_⟩
        intro i hi
        cases hi
        exact htexts _ (by simp)
    · intro edge hedge
      rw [dottedSchema, Schema.declareNodeType, Schema.empty, BTreeMap.vals_empty] at hedge
      cases hedge
  refine ⟨hplain, ?_⟩
  rintro ⟨read, hread, -⟩
  have hblocks : ∀ ty ∈ dottedSchema.nodeTypes.vals, ∀ b ∈ blocksOf dottedSchema ty,
      b = .property ⟨"a.b", .string, .one, some ⟨"http://www.w3.org/ns/shacl#a.b"⟩, none⟩ := by
    intro ty hty b hb
    rw [(htypes ty).mp hty, blocksOf] at hb
    simpa [dottedSchema, Schema.declareNodeType, Schema.empty] using hb
  have hprints := hplain.printsBack ?_ hread
  · have hmem := (htypes _).mpr rfl
    have hread := (hprints _ hmem).2 (.property ⟨"a.b", .string, .one,
      some ⟨"http://www.w3.org/ns/shacl#a.b"⟩, none⟩) (by simp [blocksOf])
    have hloc : simpleLocal shUri ⟨"http://www.w3.org/ns/shacl#a.b"⟩ = some ['a', '.', 'b'] := by
      decide +kernel
    unfold Block.Prints Readable at hread
    dsimp only [propertyPathIri, Option.getD_some] at hread
    rw [hloc] at hread
    exact absurd (hread '.' (by simp)) (by simp [Turtle.endsToken])
  · intro ty hty b hb i hi hmem
    rw [hblocks ty hty b hb, Block.iris, List.mem_singleton] at hi
    rw [hi] at hmem
    simp [propertyPathIri] at hmem

end Shacl

end AtomrOntology
