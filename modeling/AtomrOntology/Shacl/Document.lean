import AtomrOntology.Rdf.ReadsBack
import AtomrOntology.Shacl.Parse

/-!
# What a SHACL document says

The document of a schema is a list of statements, each about a subject of its own. Where
the IRIs that it prints read back, the Turtle parser gives exactly their triples.
-/

namespace AtomrOntology

namespace Shacl

/-- The printed form of an IRI is read as that IRI: there is nothing in it that ends the
term early. -/
@[irreducible] def Readable (iri : Iri) : Prop :=
  match simpleLocal shUri iri with
  | some loc => ∀ c ∈ loc, Turtle.endsToken c = false
  | none =>
    match simpleLocal xsdUri iri with
    | some loc => ∀ c ∈ loc, Turtle.endsToken c = false
    | none => '>' ∉ iri.value.toList

/-- The prefixes that a document declares. -/
def vocabulary : Vocabulary := (Vocabulary.empty.bind shPrefix ⟨shUri⟩).bind xsdPrefix ⟨xsdUri⟩

/-- The prefix of the shape vocabulary. -/
theorem vocabulary_sh : vocabulary.namespaces["sh"]? = some ⟨shUri⟩ := by
  rw [vocabulary, Vocabulary.bind, BTreeMap.get_insert, if_neg (by decide), Vocabulary.bind,
    BTreeMap.get_insert]
  rfl

/-- The prefix of the datatypes. -/
theorem vocabulary_xsd : vocabulary.namespaces["xsd"]? = some ⟨xsdUri⟩ := by
  rw [vocabulary, Vocabulary.bind, BTreeMap.get_insert]
  rfl

/-- An IRI has a simple local name if it is the namespace and that name. -/
theorem simpleLocal_eq_some {uri : String} {iri : Iri} {loc : List Char} :
    simpleLocal uri iri = some loc ↔
      iri = ⟨uri ++ .ofList loc⟩ ∧ isSimpleLocal loc = true := by
  have hstrip : stripPrefix uri.toList iri.value.toList = some loc ↔
      iri = ⟨uri ++ .ofList loc⟩ := by
    have hiri : iri = ⟨uri ++ .ofList loc⟩ ↔ iri.value.toList = uri.toList ++ loc := by
      cases iri
      rw [Iri.mk.injEq, ← String.toList_inj, String.toList_append, String.toList_ofList]
    rw [hiri, stripPrefix_eq_some]
  rw [simpleLocal, Option.filter_eq_some_iff, hstrip]

/-- An IRI of a namespace whose local name is simple and has no mark in it. -/
theorem readable_shaclIri (loc : String) (hsimple : isSimpleLocal loc.toList = true)
    (hends : ∀ c ∈ loc.toList, Turtle.endsToken c = false) : Readable (shaclIri loc) := by
  have hloc : simpleLocal shUri (shaclIri loc) = some loc.toList := by
    rw [simpleLocal_eq_some, String.ofList_toList]
    exact ⟨rfl, hsimple⟩
  rw [Readable, hloc]
  exact hends

/-- A datatype with a simple local name can be read. -/
theorem readable_xsdIri (loc : String) (hsimple : isSimpleLocal loc.toList = true)
    (hends : ∀ c ∈ loc.toList, Turtle.endsToken c = false) : Readable (xsdIri loc) := by
  have hsh : simpleLocal shUri (xsdIri loc) = none := by
    simp [simpleLocal, stripPrefix, xsdIri, shUri, xsdUri]
  have hloc : simpleLocal xsdUri (xsdIri loc) = some loc.toList := by
    rw [simpleLocal_eq_some, String.ofList_toList]
    exact ⟨rfl, hsimple⟩
  rw [Readable, hsh]
  simp only
  rw [hloc]
  exact hends

/-- A readable IRI is read as a term. -/
theorem reads_pushIriTerm {iri : Iri} (h : Readable iri) :
    Turtle.Reads (Turtle.parseIriOrCurieOrBlank vocabulary) (pushIriTerm iri) (.iri iri) := by
  unfold Readable at h
  unfold pushIriTerm
  split
  · next loc hloc =>
    rw [hloc] at h
    rw [(simpleLocal_eq_some.mp hloc).1]
    exact Turtle.reads_curie 's' ['h'] (by decide) (by decide)
      (by simp [Turtle.endsToken, isWhitespace]) vocabulary_sh h
  · next hsh =>
    rw [hsh] at h
    simp only at h
    split
    · next loc hloc =>
      rw [hloc] at h
      rw [(simpleLocal_eq_some.mp hloc).1]
      exact Turtle.reads_curie 'x' ['s', 'd'] (by decide) (by decide)
        (by simp [Turtle.endsToken, isWhitespace]) vocabulary_xsd h
    · next hxsd =>
      rw [hxsd] at h
      have hreads : Turtle.Reads (Turtle.parseIriOrCurieOrBlank vocabulary) _ _ :=
        Turtle.reads_angle h
      rwa [String.ofList_toList] at hreads

/-- The text of an IRI starts neither like the keyword nor like a literal. -/
theorem head_pushIriTerm (iri : Iri) : (pushIriTerm iri).head? ≠ some 'a' ∧
    (pushIriTerm iri).head? ≠ some '"' := by
  unfold pushIriTerm
  split
  · simp [shPrefix]
  · split
    · simp [xsdPrefix]
    · simp

/-- A readable IRI is read as an object. -/
theorem reads_object {iri : Iri} (h : Readable iri) :
    Turtle.Reads (Turtle.parseObject vocabulary) (pushIriTerm iri) (.iri iri) :=
  (reads_pushIriTerm h).object (head_pushIriTerm iri).2

/-- The object of a bound. -/
def integerLiteral (n : UInt32) : Object :=
  .literal (toString n.toNat) (xsdIri "integer") none

/-- Numbers are written in digits. -/
theorem digit_of_mem_toString {n : Nat} {c : Char} (h : c ∈ (toString n).toList) :
    c.isDigit = true := by
  rw [Nat.toString_eq_ofList_toDigits, String.toList_ofList] at h
  exact Nat.isDigit_of_mem_toDigits (by decide) (by decide) h

/-- The digits are next to each other. -/
theorem isDigit_bounds {c : Char} (h : c.isDigit = true) : 48 ≤ c.toNat ∧ c.toNat ≤ 57 := by
  simp only [Char.isDigit, Bool.and_eq_true, decide_eq_true_eq] at h
  exact ⟨UInt32.le_iff_toNat_le.mp h.1, UInt32.le_iff_toNat_le.mp h.2⟩

/-- A digit is no other character. -/
theorem ne_of_isDigit {c d : Char} (h : c.isDigit = true) (hd : d.isDigit = false) : c ≠ d := by
  rintro rfl
  rw [h] at hd
  cases hd

/-- An integer is read as its literal. -/
theorem reads_integer (n : UInt32) : Turtle.Reads (Turtle.parseObject vocabulary)
    (pushXsdInteger n) (integerLiteral n) := by
  have hinteger : Readable (xsdIri "integer") :=
    readable_xsdIri "integer" (by simp [isSimpleLocal]) (by simp [Turtle.endsToken, isWhitespace])
  have hdigits : ∀ c ∈ (toString n.toNat).toList, c.toNat < 128 ∧ c ≠ '\\' ∧ c ≠ '"' := by
    intro c hc
    have hdigit := digit_of_mem_toString hc
    have hbounds := isDigit_bounds hdigit
    exact ⟨by omega, ne_of_isDigit hdigit rfl, ne_of_isDigit hdigit rfl⟩
  have hreads := Turtle.reads_typedLiteral hdigits (reads_pushIriTerm hinteger)
  rwa [String.ofList_toList] at hreads

/-- The label of a blank node has no character that ends a token. -/
theorem endsToken_nextBlank (n : Nat) : ∀ c ∈ nextBlank n, Turtle.endsToken c = false := by
  intro c hc
  rcases List.mem_cons.mp hc with rfl | hc
  · simp [Turtle.endsToken, isWhitespace]
  · have hdigit := digit_of_mem_toString hc
    have hbounds := isDigit_bounds hdigit
    have hws : isWhitespace c = false := by
      simp only [isWhitespace, Bool.or_eq_false_iff, Bool.and_eq_false_iff, decide_eq_false_iff_not,
        beq_eq_false_iff_ne]
      omega
    have hne : ∀ d : Char, d.isDigit = false → (c == d) = false := by
      intro d hd
      exact beq_eq_false_iff_ne.mpr (ne_of_isDigit hdigit hd)
    rw [Turtle.endsToken, hws, hne '.' rfl, hne ';' rfl, hne ',' rfl]
    rfl

/-- The label of a blank node is read. -/
theorem reads_label (n : Nat) : Turtle.Reads (Turtle.parseIriOrCurieOrBlank vocabulary)
    ('_' :: ':' :: nextBlank n) (.blank (.ofList (nextBlank n))) :=
  Turtle.reads_blank (endsToken_nextBlank n)

/-- The terms of the shape vocabulary can be read. -/
theorem readable_terms : ∀ loc ∈ ["NodeShape", "targetClass", "property", "path", "minCount",
    "maxCount", "datatype", "nodeKind", "IRI", "class"], Readable (shaclIri loc) := by
  intro loc hloc
  apply readable_shaclIri
  · revert loc
    simp [isSimpleLocal]
  · revert loc
    simp [Turtle.endsToken, isWhitespace]

/-- So can the datatypes. -/
theorem readable_datatypes : ∀ loc ∈ ["string", "integer", "double", "boolean", "dateTime",
    "anyURI", "base64Binary"], Readable (xsdIri loc) := by
  intro loc hloc
  apply readable_xsdIri
  · revert loc
    simp [isSimpleLocal]
  · revert loc
    simp [Turtle.endsToken, isWhitespace]

/-- Every datatype is written as one of these. -/
theorem readable_xsdForDatatype (d : Datatype) : Readable (xsdForDatatype d) := by
  cases d <;> rw [xsdForDatatype] <;> exact readable_datatypes _ (by simp)

/-- A clause whose predicate is a term of the vocabulary. -/
def clauseOf (loc : String) (h : Readable (shaclIri loc)) {text : List Char} {object : Object}
    (hobject : Turtle.Reads (Turtle.parseObject vocabulary) text object) :
    Turtle.Clause vocabulary :=
  ⟨pushIriTerm (shaclIri loc), text, shaclIri loc, object,
    (reads_pushIriTerm h).predicate (head_pushIriTerm _).1, hobject⟩

/-- A clause goes on with its predicate and its object. -/
theorem continues_pushClause {loc : String} (h : Readable (shaclIri loc)) {text : List Char}
    {object : Object} (hobject : Turtle.Reads (Turtle.parseObject vocabulary) text object) :
    Turtle.Continues vocabulary (pushClause (shaclIri loc) text) [(shaclIri loc, object)] :=
  .singleton (clauseOf loc h hobject)

/-- A subject with what is said about it. -/
structure Statement where
  subject : Subject
  clauses : List (Iri × Object)

def Statement.triples (s : Statement) : List Triple := s.clauses.map fun c => ⟨s.subject, c.1, c.2⟩

def cardinalityClauses (c : Cardinality) : List (Iri × Object) :=
  (if 0 < c.min then [(shaclIri "minCount", integerLiteral c.min)] else []) ++
    match c.max with
    | some max => [(shaclIri "maxCount", integerLiteral max)]
    | none => []

def propertyClauses (prop : PropertyType) : List (Iri × Object) :=
  (shaclIri "path", .iri (propertyPathIri prop)) :: (cardinalityClauses prop.cardinality ++
    [(shaclIri "datatype", .iri (xsdForDatatype prop.datatype))])

def edgeClauses (schema : Schema) (edge : EdgeType) : List (Iri × Object) :=
  (shaclIri "path", .iri (edgePathIri edge)) :: (cardinalityClauses edge.cardinality ++
    ([(shaclIri "nodeKind", .iri (shaclIri "IRI"))] ++
      edge.range.map fun target => (shaclIri "class", .iri (targetIri schema target))))

def blockStatement (schema : Schema) (n : Nat) : Block → Statement
  | .property prop => ⟨.blank (.ofList (nextBlank n)), propertyClauses prop⟩
  | .edge edge => ⟨.blank (.ofList (nextBlank n)), edgeClauses schema edge⟩

def shapeStatement (ty : NodeType) (labels : List Nat) : Statement :=
  ⟨.iri (shapeIriFor ty), (rdfType, .iri (shaclIri "NodeShape")) ::
    ([(shaclIri "targetClass", .iri (typeIri ty))] ++
      labels.map fun n => (shaclIri "property", .blank (.ofList (nextBlank n))))⟩

/-- The statements about node types, numbered from a counter on. -/
def statements (schema : Schema) (counter : Nat) : List NodeType → List Statement
  | [] => []
  | ty :: types =>
    let blocks := (blocksOf schema ty).zipIdx counter
    shapeStatement ty (blocks.map Prod.snd) :: (blocks.map fun b =>
      blockStatement schema b.2 b.1) ++
      statements schema (counter + blocks.length) types

/-- What is printed of a block reads back. -/
def Block.Prints (schema : Schema) : Block → Prop
  | .property prop => Readable (propertyPathIri prop)
  | .edge e => Readable (edgePathIri e) ∧ ∀ target ∈ e.range, Readable (targetIri schema target)

/-- A subject with a first clause and others makes a statement. -/
theorem states_statement {subjectText objectText text : List Char} {subject : Subject}
    {loc : String} {object : Object} {clauses : List (Iri × Object)}
    (hsubject : Turtle.Reads (Turtle.parseIriOrCurieOrBlank vocabulary) subjectText subject)
    (hloc : Readable (shaclIri loc))
    (hobject : Turtle.Reads (Turtle.parseObject vocabulary) objectText object)
    (h : Turtle.Continues vocabulary text clauses) :
    Turtle.States vocabulary
      (subjectText ++ ' ' :: (pushIriTerm (shaclIri loc) ++ ' ' :: objectText) ++ text ++
        " .\n".toList)
      (Statement.triples ⟨subject, (shaclIri loc, object) :: clauses⟩) :=
  Turtle.States.statement hsubject (clauseOf loc hloc hobject) h

/-- A cardinality goes on with its bounds. -/
theorem continues_pushCardinality (c : Cardinality) :
    Turtle.Continues vocabulary (pushCardinality c) (cardinalityClauses c) := by
  have hmin : Turtle.Continues vocabulary
      (if 0 < c.min then pushClause (shaclIri "minCount") (pushXsdInteger c.min) else [])
      (if 0 < c.min then [(shaclIri "minCount", integerLiteral c.min)] else []) := by
    split
    · exact continues_pushClause (readable_terms _ (by simp)) (reads_integer c.min)
    · exact .nil
  refine hmin.append ?_
  cases c.max with
  | none => exact .nil
  | some max => exact continues_pushClause (readable_terms _ (by simp)) (reads_integer max)

/-- A block adds its statement. -/
theorem states_renderBlock (schema : Schema) (n : Nat) {b : Block} (h : b.Prints schema) :
    Turtle.States vocabulary (renderBlock schema (nextBlank n) b)
      (blockStatement schema n b).triples := by
  cases b with
  | property prop =>
    have hdatatype := continues_pushClause (readable_terms "datatype" (by simp))
      (reads_object (readable_xsdForDatatype prop.datatype))
    have hrest := (continues_pushCardinality prop.cardinality).append hdatatype
    exact states_statement (reads_label n) (readable_terms "path" (by simp)) (reads_object h) hrest
  | edge edge =>
    obtain ⟨hpath, htargets⟩ := h
    have hkind := continues_pushClause (readable_terms "nodeKind" (by simp))
      (reads_object (readable_terms "IRI" (by simp)))
    have hclasses : Turtle.Continues vocabulary
        (edge.range.flatMap fun target =>
          pushClause (shaclIri "class") (pushIriTerm (targetIri schema target)))
        (edge.range.map fun target => (shaclIri "class", .iri (targetIri schema target))) :=
      .flatMap fun target ht => continues_pushClause (readable_terms "class" (by simp))
        (reads_object (htargets target ht))
    have hrest := (continues_pushCardinality edge.cardinality).append (hkind.append hclasses)
    exact states_statement (reads_label n) (readable_terms "path" (by simp)) (reads_object hpath)
      hrest

/-- A shape adds its statement. -/
theorem states_emitNodeShape {ty : NodeType} (labels : List Nat)
    (hshape : Readable (shapeIriFor ty)) (htype : Readable (typeIri ty)) :
    Turtle.States vocabulary (emitNodeShape ty (labels.map nextBlank))
      (shapeStatement ty labels).triples := by
  have htarget := continues_pushClause (readable_terms "targetClass" (by simp))
    (reads_object htype)
  have hrefs : Turtle.Continues vocabulary
      ((labels.map nextBlank).flatMap fun label =>
        pushClause (shaclIri "property") ('_' :: ':' :: label))
      (labels.map fun n => (shaclIri "property", .blank (.ofList (nextBlank n)))) := by
    rw [List.flatMap_map]
    refine .flatMap fun n _ => continues_pushClause (readable_terms "property" (by simp)) ?_
    exact (reads_label n).object (by simp)
  let isA : Turtle.Clause vocabulary := ⟨['a'], pushIriTerm (shaclIri "NodeShape"), rdfType,
    .iri (shaclIri "NodeShape"), Turtle.reads_a, reads_object (readable_terms _ (by simp))⟩
  have hrest := htarget.append hrefs
  exact Turtle.States.statement (reads_pushIriTerm hshape) isA hrest

/-- The text of some node types states their shapes. -/
theorem states_emitNodeTypes (schema : Schema) (types : List NodeType)
    (h : ∀ ty ∈ types, Readable (shapeIriFor ty) ∧ Readable (typeIri ty) ∧
      ∀ b ∈ blocksOf schema ty, b.Prints schema) (counter : Nat) :
    Turtle.States vocabulary (emitNodeTypes schema counter types)
      ((statements schema counter types).flatMap Statement.triples) := by
  induction types generalizing counter with
  | nil => exact .nil
  | cons ty types ih =>
    obtain ⟨hshape, htype, hblocks⟩ := h ty List.mem_cons_self
    have hrest := ih (fun ty hty => h ty (List.mem_cons_of_mem _ hty))
      (counter + ((blocksOf schema ty).zipIdx counter).length)
    have hshapes := states_emitNodeShape (((blocksOf schema ty).zipIdx counter).map Prod.snd)
      hshape htype
    have hrendered : Turtle.States vocabulary
        (((blocksOf schema ty).zipIdx counter).flatMap fun b =>
          renderBlock schema (nextBlank b.2) b.1)
        (((blocksOf schema ty).zipIdx counter).flatMap fun b =>
          (blockStatement schema b.2 b.1).triples) := by
      refine .flatMap fun b hb => states_renderBlock schema b.2 (hblocks b.1 ?_)
      exact List.fst_mem_of_mem_zipIdx hb
    have hall := (hshapes.append hrendered).append (Turtle.States.newline.append hrest)
    rw [List.map_map] at hall
    simp only [emitNodeTypes, statements, List.flatMap_cons, List.flatMap_append, List.flatMap_map,
      List.append_assoc, List.nil_append, List.cons_append] at hall ⊢
    exact hall

/-- `pushPrefix` writes the line of a directive. -/
theorem parseDirectives_pushPrefix (vocab : Vocabulary) (pre base : String) (rest : List Char)
    (hpre : ':' ∉ pre.toList) (hstarts : ∃ c ∈ pre.toList.head?, isWhitespace c = false ∧ c ≠ '#')
    (htrim : trimChars pre.toList = pre.toList) (hbase : '>' ∉ base.toList) :
    Turtle.parseDirectives vocab (pushPrefix pre base ++ rest) =
      Turtle.parseDirectives (vocab.bind pre ⟨base⟩) rest :=
  Turtle.parseDirectives_line pre base rest vocab hpre hstarts htrim hbase

/-- The text of an IRI starts with a character that is not skipped. -/
theorem starts_pushIriTerm (iri : Iri) :
    ∃ c ∈ (pushIriTerm iri).head?, isWhitespace c = false ∧ c ≠ '#' ∧ c ≠ '@' := by
  unfold pushIriTerm
  split
  · exact ⟨'s', by simp [shPrefix], by decide⟩
  · split
    · exact ⟨'x', by simp [xsdPrefix], by decide⟩
    · exact ⟨'<', by simp, by decide⟩

/-- There are no prefix declarations among the shapes. -/
theorem stripPrefix_emitNodeTypes (schema : Schema) (types : List NodeType) (counter : Nat) :
    stripPrefix "@prefix".toList (Turtle.skipWs (emitNodeTypes schema counter types)) =
      none := by
  cases types with
  | nil => simp [emitNodeTypes, Turtle.skipWs, stripPrefix]
  | cons ty types =>
    obtain ⟨c, hc, hws, hhash, hat⟩ := starts_pushIriTerm (shapeIriFor ty)
    rw [emitNodeTypes, emitNodeShape]
    simp only [List.append_assoc]
    rw [Turtle.skipWs_append _ ⟨c, hc, hws, hhash⟩]
    cases hterm : pushIriTerm (shapeIriFor ty) with
    | nil => rw [hterm] at hc; cases hc
    | cons d term =>
      rw [hterm] at hc
      cases hc
      simp [stripPrefix, Ne.symm hat]

theorem starts_shPrefix : ∃ c ∈ shPrefix.toList.head?, isWhitespace c = false ∧ c ≠ '#' := by
  refine ⟨'s', ?_, ?_, by decide⟩
  · simp [shPrefix]
  · simp [isWhitespace]

theorem starts_xsdPrefix : ∃ c ∈ xsdPrefix.toList.head?, isWhitespace c = false ∧ c ≠ '#' := by
  refine ⟨'x', ?_, ?_, by decide⟩
  · simp [xsdPrefix]
  · simp [isWhitespace]

/-- After the two directives of a document come its statements. -/
theorem parse_document (schema : Schema) :
    Turtle.parse (toShaclTurtle schema).toList =
      Turtle.parseStatements vocabulary (emitNodeTypes schema 0 schema.nodeTypes.vals) := by
  have hstrip := stripPrefix_emitNodeTypes schema schema.nodeTypes.vals 0
  have hsh := fun rest => parseDirectives_pushPrefix .empty shPrefix shUri rest (by simp [shPrefix])
    starts_shPrefix (by simp [trimChars, shPrefix, isWhitespace]) (by simp [shUri])
  have hxsd := fun vocab rest => parseDirectives_pushPrefix vocab xsdPrefix xsdUri rest
    (by simp [xsdPrefix]) starts_xsdPrefix (by simp [trimChars, xsdPrefix, isWhitespace])
    (by simp [xsdUri])
  have hskip : ∀ cs, Turtle.parseStatements vocabulary (Turtle.skipWs cs) =
      Turtle.parseStatements vocabulary cs := by
    intro cs
    rw [Turtle.parseStatements_eq, Turtle.skipWs_skipWs, ← Turtle.parseStatements_eq]
  rw [Turtle.parse, toShaclTurtle, String.toList_ofList, List.append_assoc, hsh,
    hxsd, Turtle.parseDirectives_newline, Turtle.parseDirectives_body _ hstrip]
  exact hskip _

/-- The document of a schema whose IRIs read back says what its statements say. -/
theorem parse_toShaclTurtle (schema : Schema)
    (h : ∀ ty ∈ schema.nodeTypes.vals, Readable (shapeIriFor ty) ∧ Readable (typeIri ty) ∧
      ∀ b ∈ blocksOf schema ty, b.Prints schema) :
    Turtle.parse (toShaclTurtle schema).toList =
      .ok ((statements schema 0 schema.nodeTypes.vals).flatMap Statement.triples) := by
  have hbody := states_emitNodeTypes schema schema.nodeTypes.vals h 0 []
  have hnil : Turtle.parseStatements vocabulary [] = .ok [] := by
    rw [Turtle.parseStatements_eq]
    rfl
  rw [List.append_nil, hnil] at hbody
  rw [parse_document, hbody, Except.map, List.append_nil]

end Shacl

end AtomrOntology
