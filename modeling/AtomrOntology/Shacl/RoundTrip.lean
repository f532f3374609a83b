import AtomrOntology.Shacl.Document

/-!
# Schemas through SHACL

The triples of a document are regrouped by subject, and every statement is found again
under its own subject. A node shape then gives back its node type with its properties; an
edge block names no datatype and is left out.
-/

namespace AtomrOntology

namespace Shacl

/-- Subjects are told apart by their keys. -/
theorem subjectKey_inj {a b : Subject} : subjectKey a = subjectKey b ↔ a = b := by
  constructor
  · intro h
    cases a with
    | iri i =>
      cases b with
      | iri j =>
        cases i
        cases j
        cases h
        rfl
      | blank l => cases h
    | blank l =>
      cases b with
      | iri j => cases h
      | blank l' =>
        cases h
        rfl
  · rintro rfl
    rfl

/-- Blank nodes are told apart by their numbers. -/
theorem nextBlank_inj {m n : Nat} : nextBlank m = nextBlank n ↔ m = n := by
  constructor
  · intro h
    have hdigits : Nat.toDigits 10 m = Nat.toDigits 10 n := by
      have htail : (toString m).toList = (toString n).toList := (List.cons.inj h).2
      simpa [Nat.toString_eq_ofList_toDigits] using htail
    calc
      m = Nat.ofDigitChars 10 (Nat.toDigits 10 m) 0 := Nat.ofDigitChars_ten_toDigits.symm
      _ = Nat.ofDigitChars 10 (Nat.toDigits 10 n) 0 := by rw [hdigits]
      _ = n := Nat.ofDigitChars_ten_toDigits
  · rintro rfl
    rfl

/-- Under a subject are its triples, if it has any. -/
theorem get_bySubject (triples : List Triple) (k : SubjectKey) :
    (bySubject triples)[k]? =
      if triples.filter (subjectKey ·.subject = k) = [] then none
      else some (triples.filter (subjectKey ·.subject = k)) := by
  have hadds : triples.filterMap (fun t => if subjectKey t.subject = k then some [t] else none) =
      (triples.filter (subjectKey ·.subject = k)).map fun t => [t] := by
    induction triples with
    | nil => rfl
    | cons t ts ih => by_cases ht : subjectKey t.subject = k <;> simp [ht, ih]
  rw [bySubject, foldl_appends (fun m : BTreeMap SubjectKey (List Triple) => m[k]?)
    (fun t : Triple => if subjectKey t.subject = k then some [t] else none), hadds]
  · rw [← List.flatMap_def, List.flatMap_singleton']
    simp
  · intro m t
    rw [BTreeMap.entryOr, Std.ExtTreeMap.getElem?_alter]
    simp only [Std.LawfulEqOrd.compare_eq_iff_eq]
    by_cases hk : subjectKey t.subject = k
    · rw [if_pos hk, if_pos hk, hk]
    · rw [if_neg hk, if_neg hk]

/-- The triples of one of several statements about different subjects. -/
theorem filter_flatMap_triples {stmts : List Statement} (hd : (stmts.map Statement.subject).Nodup)
    {s : Statement} (hs : s ∈ stmts) :
    (stmts.flatMap Statement.triples).filter (subjectKey ·.subject = subjectKey s.subject) =
      s.triples := by
  have hown : ∀ s' : Statement, s'.subject = s.subject →
      s'.triples.filter (subjectKey ·.subject = subjectKey s.subject) = s'.triples := by
    intro s' hsubj
    apply List.filter_eq_self.mpr
    intro t ht
    obtain ⟨c, -, rfl⟩ := List.mem_map.mp ht
    simp [hsubj]
  have hother : ∀ s' : Statement, s'.subject ≠ s.subject →
      s'.triples.filter (subjectKey ·.subject = subjectKey s.subject) = [] := by
    intro s' hsubj
    apply List.filter_eq_nil_iff.mpr
    intro t ht
    obtain ⟨c, -, rfl⟩ := List.mem_map.mp ht
    simpa [subjectKey_inj] using hsubj
  induction stmts with
  | nil => cases hs
  | cons s' stmts ih =>
    rw [List.map_cons, List.nodup_cons] at hd
    rw [List.flatMap_cons, List.filter_append]
    rcases List.mem_cons.mp hs with rfl | hs
    · have hrest : (stmts.flatMap Statement.triples).filter
          (subjectKey ·.subject = subjectKey s.subject) = [] := by
        rw [List.filter_flatMap, List.flatMap_eq_nil_iff]
        intro u hu
        apply hother u
        intro hsubj
        exact hd.1 (hsubj ▸ List.mem_map_of_mem hu)
      rw [hown s rfl, hrest, List.append_nil]
    · have hne : s'.subject ≠ s.subject := by
        intro hsubj
        exact hd.1 (hsubj ▸ List.mem_map_of_mem hs)
      rw [hother s' hne, List.nil_append]
      exact ih hd.2 hs

/-- Under the subject of a statement are the triples of the statement. -/
theorem get_index {stmts : List Statement} (hd : (stmts.map Statement.subject).Nodup)
    {s : Statement} (hs : s ∈ stmts) (hne : s.clauses ≠ []) :
    (bySubject (stmts.flatMap Statement.triples))[subjectKey s.subject]? = some s.triples := by
  have htriples : s.triples ≠ [] := by
    intro hnil
    exact hne (List.map_eq_nil_iff.mp hnil)
  rw [get_bySubject, filter_flatMap_triples hd hs, if_neg htriples]

/-- A statement is about a shape or about a block of one. -/
theorem mem_statements {schema : Schema} {types : List NodeType} {counter : Nat} {s : Statement}
    (h : s ∈ statements schema counter types) :
    (∃ ty ∈ types, ∃ labels, s = shapeStatement ty labels) ∨
      ∃ n b, counter ≤ n ∧ s = blockStatement schema n b := by
  induction types generalizing counter with
  | nil => cases h
  | cons ty types ih =>
    rw [statements] at h
    rcases List.mem_cons.mp h with rfl | h
    · exact Or.inl ⟨ty, List.mem_cons_self, _, rfl⟩
    · rcases List.mem_append.mp h with h | h
      · obtain ⟨⟨b, n⟩, hb, rfl⟩ := List.mem_map.mp h
        exact Or.inr ⟨n, b, List.le_snd_of_mem_zipIdx hb, rfl⟩
      · rcases ih h with ⟨ty', hty, labels, hs⟩ | ⟨n, b, hn, hs⟩
        · exact Or.inl ⟨ty', List.mem_cons_of_mem ty hty, labels, hs⟩
        · exact Or.inr ⟨n, b, (Nat.le_add_right _ _).trans hn, hs⟩

/-- The statement of a block has its blank node as the subject. -/
@[simp] theorem subject_blockStatement (schema : Schema) (n : Nat) (b : Block) :
    (blockStatement schema n b).subject = .blank (.ofList (nextBlank n)) := by
  cases b <;> rfl

/-- Subjects are the IRIs of shapes and blank nodes. -/
theorem subject_of_mem_statements {schema : Schema} {types : List NodeType} {counter : Nat}
    {s : Statement} (h : s ∈ statements schema counter types) :
    (∃ ty ∈ types, s.subject = .iri (shapeIriFor ty)) ∨
      ∃ n, counter ≤ n ∧ s.subject = .blank (.ofList (nextBlank n)) := by
  rcases mem_statements h with ⟨ty, hty, labels, rfl⟩ | ⟨n, b, hn, rfl⟩
  · exact Or.inl ⟨ty, hty, rfl⟩
  · exact Or.inr ⟨n, hn, subject_blockStatement schema n b⟩

/-- No two statements have one subject if no two shapes have one IRI. -/
theorem nodup_subjects (schema : Schema) {types : List NodeType}
    (hd : (types.map shapeIriFor).Nodup) (counter : Nat) :
    ((statements schema counter types).map Statement.subject).Nodup := by
  induction types generalizing counter with
  | nil => exact List.nodup_nil
  | cons ty types ih =>
    rw [List.map_cons, List.nodup_cons] at hd
    rw [statements]
    simp only [List.map_cons, List.map_append, List.map_map, List.cons_append]
    rw [List.nodup_cons, List.nodup_append]
    refine ⟨?_, ?_, ih hd.2 _, ?_⟩
    · intro hmem
      rcases List.mem_append.mp hmem with hmem | hmem
      · obtain ⟨b, -, hb⟩ := List.mem_map.mp hmem
        rw [Function.comp_apply, subject_blockStatement] at hb
        cases hb
      · obtain ⟨s, hs, hsubj⟩ := List.mem_map.mp hmem
        rcases subject_of_mem_statements hs with ⟨ty', hty, hsubj'⟩ | ⟨n, -, hsubj'⟩
        · rw [hsubj'] at hsubj
          exact hd.1 ((Subject.iri.inj hsubj) ▸ List.mem_map_of_mem hty)
        · rw [hsubj'] at hsubj
          cases hsubj
    · have hlabels : (Statement.subject ∘ fun b : Block × Nat => blockStatement schema b.2 b.1) =
          (fun n => Subject.blank (.ofList (nextBlank n))) ∘ Prod.snd :=
        funext fun b => subject_blockStatement schema b.2 b.1
      rw [hlabels, ← List.map_map, List.zipIdx_map_snd]
      refine List.Nodup.map ?_ List.nodup_range'
      intro m n hmn
      exact nextBlank_inj.mp (String.ofList_injective (Subject.blank.inj hmn))
    · intro x hx y hy
      obtain ⟨b, hb, rfl⟩ := List.mem_map.mp hx
      obtain ⟨s, hs, rfl⟩ := List.mem_map.mp hy
      rw [Function.comp_apply, subject_blockStatement]
      rcases subject_of_mem_statements hs with ⟨ty', -, hsubj⟩ | ⟨n, hn, hsubj⟩
      · rw [hsubj]
        exact Subject.noConfusion
      · rw [hsubj]
        intro heq
        have hlabel := nextBlank_inj.mp (String.ofList_injective (Subject.blank.inj heq))
        have hlt := List.snd_lt_add_of_mem_zipIdx hb
        rw [List.length_zipIdx] at hn
        omega

/-- A number is read back from its digits. -/
theorem parseU32_toString (n : UInt32) : parseU32 (toString n.toNat).toList = some n := by
  have hdigits : (toString n.toNat).toList = Nat.toDigits 10 n.toNat := by
    rw [Nat.toString_eq_ofList_toDigits, String.toList_ofList]
  have hall : ∀ c ∈ Nat.toDigits 10 n.toNat, c.isDigit = true := fun c hc =>
    Nat.isDigit_of_mem_toDigits (by decide) (by decide) hc
  have hplus : (Nat.toDigits 10 n.toNat).head? ≠ some '+' := by
    intro hhead
    have hdigit := hall '+' (List.mem_of_mem_head? hhead)
    revert hdigit
    decide
  have hne : (Nat.toDigits 10 n.toNat).isEmpty = false := by
    rw [List.isEmpty_eq_false_iff]
    exact Nat.toDigits_ne_nil
  have hlt : n.toNat < 2 ^ 32 := n.toNat_lt
  rw [hdigits, parseU32, if_neg hplus]
  simp only [hne, List.all_eq_true.mpr hall, Bool.not_false, Bool.and_self, ↓reduceIte,
    Nat.ofDigitChars_ten_toDigits, hlt, UInt32.ofNat_toNat]

/-- Datatypes other than JSON are read back. -/
theorem datatypeFromXsd_xsdForDatatype {d : Datatype} (h : d ≠ .json) :
    datatypeFromXsd (xsdForDatatype d) = d := by
  cases d with
  | json => exact absurd rfl h
  | _ => simp [datatypeFromXsd, xsdForDatatype, xsdIri, xsdUri, stripPrefix]

/-- The terms that a block reader looks for are different. -/
theorem shaclIri_inj {a b : String} : shaclIri a = shaclIri b ↔ a = b := by
  constructor
  · intro h
    exact String.append_right_inj shUri |>.mp (Iri.mk.inj h)
  · rintro rfl
    rfl

/-- A number is read back from its literal. -/
theorem literalAsU32_integerLiteral (n : UInt32) : literalAsU32 (integerLiteral n) = some n :=
  parseU32_toString n

/-- A minimum is read. -/
theorem scan_minCount (b : PropertyBlock) (n : UInt32) :
    b.scan (shaclIri "minCount") (integerLiteral n) = { b with min := n } := by
  simp [PropertyBlock.scan, shaclIri_inj, literalAsU32_integerLiteral]

/-- A maximum is read. -/
theorem scan_maxCount (b : PropertyBlock) (n : UInt32) :
    b.scan (shaclIri "maxCount") (integerLiteral n) = { b with max := some n } := by
  simp [PropertyBlock.scan, shaclIri_inj, literalAsU32_integerLiteral]

/-- Reading the bounds of a block. -/
theorem foldl_cardinalityClauses (b : PropertyBlock) (c : Cardinality) (hmin : b.min = 0)
    (hmax : b.max = none) :
    (cardinalityClauses c).foldl (fun b p => b.scan p.1 p.2) b =
      { b with min := c.min, max := c.max } := by
  have hfirst : (if 0 < c.min then [(shaclIri "minCount", integerLiteral c.min)] else []).foldl
      (fun b p => b.scan p.1 p.2) b = { b with min := c.min } := by
    split
    · exact scan_minCount b c.min
    · next hzero =>
      have hc : c.min = 0 := by
        rw [UInt32.lt_iff_toNat_lt] at hzero
        exact UInt32.toNat_inj.mp (Nat.le_zero.mp (Nat.not_lt.mp hzero))
      rw [List.foldl_nil, hc, ← hmin]
  rw [cardinalityClauses, List.foldl_append, hfirst]
  cases c.max with
  | none => rw [List.foldl_nil, ← hmax]
  | some max => exact scan_maxCount _ max

/-- What comes back of a block. -/
def Block.projected : Block → Option PropertyType
  | .property prop => some { prop with description := none }
  | .edge _ => none

/-- A property that a shape can say: its name is the local name of its IRI, and it is no JSON. -/
structure FaithfulProperty (prop : PropertyType) : Prop where
  iri : ∃ iri, prop.iri = some iri ∧ localName iri = prop.name
  datatype : prop.datatype ≠ .json

/-- The triples of a statement are scanned clause by clause. -/
theorem foldl_triples (s : Statement) (b : PropertyBlock) :
    s.triples.foldl (fun b t => b.scan t.predicate t.object) b =
      s.clauses.foldl (fun b p => b.scan p.1 p.2) b := by
  rw [Statement.triples, List.foldl_map]

/-- The block of a faithful property is read back without its description. -/
theorem parsePropertyBlock_property (schema : Schema) (n : Nat) {prop : PropertyType}
    (h : FaithfulProperty prop) :
    parsePropertyBlock (blockStatement schema n (.property prop)).triples =
      some { prop with description := none } := by
  obtain ⟨iri, hiri, hname⟩ := h.iri
  have hpath : propertyPathIri prop = iri := by rw [propertyPathIri, hiri, Option.getD_some]
  have hread : (blockStatement schema n (.property prop)).triples.foldl
      (fun b t => b.scan t.predicate t.object) PropertyBlock.empty =
      ⟨some iri, prop.cardinality.min, prop.cardinality.max, some prop.datatype⟩ := by
    rw [foldl_triples, blockStatement, propertyClauses, List.foldl_cons, List.foldl_append, hpath]
    have hfirst : PropertyBlock.scan .empty (shaclIri "path") (.iri iri) =
        ⟨some iri, 0, none, none⟩ := by
      simp [PropertyBlock.scan, PropertyBlock.empty, asIri?]
    rw [hfirst, foldl_cardinalityClauses _ _ rfl rfl, List.foldl_cons, List.foldl_nil]
    simp [PropertyBlock.scan, shaclIri_inj, asIri?, datatypeFromXsd_xsdForDatatype h.datatype]
  rw [parsePropertyBlock, hread]
  simp only [hname, ← hiri]

/-- The block of an edge type is not read as a property. -/
theorem parsePropertyBlock_edge (schema : Schema) (n : Nat) (edge : EdgeType) :
    parsePropertyBlock (blockStatement schema n (.edge edge)).triples = none := by
  have hclasses : ∀ (targets : List String) (b : PropertyBlock),
      (targets.map fun target => (shaclIri "class", Object.iri (targetIri schema target))).foldl
        (fun b p => b.scan p.1 p.2) b = b := by
    intro targets b
    induction targets generalizing b with
    | nil => rfl
    | cons target targets ih =>
      rw [List.map_cons, List.foldl_cons, ih]
      simp [PropertyBlock.scan, shaclIri_inj]
  have hread : ((blockStatement schema n (.edge edge)).triples.foldl
      (fun b t => b.scan t.predicate t.object) PropertyBlock.empty).datatype = none := by
    rw [foldl_triples, blockStatement, edgeClauses, List.foldl_cons, List.foldl_append,
      List.foldl_append, hclasses]
    have hfirst : PropertyBlock.scan .empty (shaclIri "path")
        (.iri (edgePathIri edge)) = ⟨some (edgePathIri edge), 0, none, none⟩ := by
      simp [PropertyBlock.scan, PropertyBlock.empty, asIri?]
    rw [hfirst, foldl_cardinalityClauses _ _ rfl rfl, List.foldl_cons, List.foldl_nil]
    simp [PropertyBlock.scan, shaclIri_inj]
  rw [parsePropertyBlock, hread]
  cases (List.foldl _ _ _ : PropertyBlock).path <;> rfl

/-- What comes back of a node type. -/
def projected (ty : NodeType) : NodeType :=
  { ty with
    supertypes := []
    properties := ty.properties.map fun prop => { prop with description := none }
    description := none }

/-- A node type that a shape can say: it is named by its IRI, and so are its properties. -/
structure FaithfulType (ty : NodeType) : Prop where
  iri : ∃ iri, ty.iri = some iri ∧ localName iri = ty.name
  properties : ∀ prop ∈ ty.properties, FaithfulProperty prop

/-- A block gives its property if it has one. -/
theorem parsePropertyBlock_block (schema : Schema) (n : Nat) {ty : NodeType} (h : FaithfulType ty)
    {b : Block} (hb : b ∈ blocksOf schema ty) :
    parsePropertyBlock (blockStatement schema n b).triples = b.projected := by
  cases b with
  | property prop =>
    rcases List.mem_append.mp hb with hb | hb
    · obtain ⟨prop', hprop, heq⟩ := List.mem_map.mp hb
      cases heq
      exact parsePropertyBlock_property schema n (h.properties prop hprop)
    · obtain ⟨edge, -, heq⟩ := List.mem_map.mp hb
      cases heq
  | edge edge => exact parsePropertyBlock_edge schema n edge

/-- The blocks that are read are those of the projected properties. -/
theorem filterMap_projected (schema : Schema) (ty : NodeType) :
    (blocksOf schema ty).filterMap Block.projected = (projected ty).properties := by
  have hprops : ty.properties.filterMap (Block.projected ∘ .property) =
      ty.properties.map fun prop => { prop with description := none } :=
    congrFun List.filterMap_eq_map ty.properties
  have hedges : ∀ edges : List EdgeType, edges.filterMap (Block.projected ∘ .edge) = [] :=
    fun edges => List.filterMap_eq_nil_iff.mpr fun _ _ => rfl
  rw [blocksOf, List.filterMap_append, List.filterMap_map, List.filterMap_map, hprops, hedges,
    List.append_nil]
  rfl

/-- A shape has a type, a target and its blocks. -/
theorem triples_shapeStatement (ty : NodeType) (labels : List Nat) :
    (shapeStatement ty labels).triples =
      ⟨.iri (shapeIriFor ty), rdfType, .iri (shaclIri "NodeShape")⟩ ::
      ⟨.iri (shapeIriFor ty), shaclIri "targetClass", .iri (typeIri ty)⟩ ::
      labels.map fun n =>
        ⟨.iri (shapeIriFor ty), shaclIri "property", .blank (.ofList (nextBlank n))⟩ := by
  simp only [shapeStatement, Statement.triples, List.map_cons, List.map_map, List.cons_append,
    List.nil_append]
  rfl

/-- No term of the shape vocabulary is the type predicate. -/
theorem rdfType_ne_shaclIri (loc : String) : rdfType ≠ shaclIri loc := by
  intro h
  have hchars := congrArg String.toList (Iri.mk.inj h)
  simp [shUri] at hchars

/-- A shape whose blocks are in the index gives its node type. -/
theorem shapeType_shapeStatement (schema : Schema) (index : BTreeMap SubjectKey (List Triple))
    {ty : NodeType} (h : FaithfulType ty) (counter : Nat)
    (hindex : ∀ b ∈ (blocksOf schema ty).zipIdx counter,
      index[subjectKey (.blank (.ofList (nextBlank b.2)))]? =
        some (blockStatement schema b.2 b.1).triples) :
    shapeType index
    (shapeStatement ty (((blocksOf schema ty).zipIdx counter).map Prod.snd)).triples =
      .ok (projected ty) := by
  obtain ⟨iri, hiri, hname⟩ := h.iri
  have htarget : typeIri ty = iri := by rw [typeIri, hiri, Option.getD_some]
  have hfound :
    (shapeStatement ty (((blocksOf schema ty).zipIdx counter).map Prod.snd)).triples.findSome?
      (fun t => if t.predicate = shaclIri "targetClass" then asIri? t.object else none) =
      some iri := by
    rw [triples_shapeStatement, htarget]
    simp [rdfType_ne_shaclIri, asIri?]
  have hfilter : (shapeStatement ty (((blocksOf schema ty).zipIdx counter).map
      Prod.snd)).triples.filter (·.predicate = shaclIri "property") =
      ((blocksOf schema ty).zipIdx counter).map fun b => ⟨.iri (shapeIriFor ty),
        shaclIri "property", .blank (.ofList (nextBlank b.2))⟩ := by
    rw [triples_shapeStatement, List.map_map]
    simp only [List.filter_cons, rdfType_ne_shaclIri, shaclIri_inj, decide_false,
      Bool.false_eq_true, ↓reduceIte]
    rw [if_neg (by decide)]
    apply List.filter_eq_self.mpr
    intro t ht
    obtain ⟨b, -, rfl⟩ := List.mem_map.mp ht
    simp
  have hproperties : (((blocksOf schema ty).zipIdx counter).filterMap fun b =>
      index[subjectKey (.blank (.ofList (nextBlank b.2)))]?.bind parsePropertyBlock) =
      (projected ty).properties := by
    rw [← filterMap_projected schema ty]
    have hfst : blocksOf schema ty = ((blocksOf schema ty).zipIdx counter).map Prod.fst :=
      (List.zipIdx_map_fst counter _).symm
    conv_rhs => rw [hfst, List.filterMap_map]
    apply List.filterMap_congr
    intro b hb
    rw [hindex b hb, Option.bind_some]
    exact parsePropertyBlock_block schema b.2 h (List.fst_mem_of_mem_zipIdx hb)
  have hrefs : (((blocksOf schema ty).zipIdx counter).map fun b => (⟨.iri (shapeIriFor ty),
      shaclIri "property", .blank (.ofList (nextBlank b.2))⟩ : Triple)).filterMap
        (fun t => (blockKey t.object).bind fun key => index[key]?.bind parsePropertyBlock) =
      (projected ty).properties := by
    rw [List.filterMap_map]
    exact hproperties
  rw [shapeType, hfound]
  simp only [hfilter, hrefs, hname]
  rw [NodeType.new, ← hiri]
  rfl

/-- Where every shape gives a node type, those node types are declared. -/
theorem declareShapes_eq {index : BTreeMap SubjectKey (List Triple)}
    {gives : SubjectKey → NodeType → Prop} {shapes : List SubjectKey}
    (h : ∀ k ∈ shapes, ∃ triples ty, index[k]? = some triples ∧ shapeType index triples = .ok ty ∧
      gives k ty) (schema : Schema) :
    ∃ types, declareShapes index schema shapes =
        .ok { schema with nodeTypes := BTreeMap.insertAll NodeType.name schema.nodeTypes types } ∧
      (∀ ty ∈ types, ∃ k ∈ shapes, gives k ty) ∧ ∀ k ∈ shapes, ∃ ty ∈ types, gives k ty := by
  induction shapes generalizing schema with
  | nil => exact ⟨[], rfl, by simp, by simp⟩
  | cons k shapes ih =>
    obtain ⟨triples, ty, hget, hshape, hgives⟩ := h k List.mem_cons_self
    obtain ⟨types, hdeclare, hfrom, hto⟩ := ih (fun k hk => h k (List.mem_cons_of_mem _ hk))
      (schema.declareNodeType ty)
    refine ⟨ty :: types, ?_, ?_, ?_⟩
    · rw [declareShapes, hget]
      simp only [hshape]
      exact hdeclare
    · intro ty' hty
      rcases List.mem_cons.mp hty with rfl | hty
      · exact ⟨k, List.mem_cons_self, hgives⟩
      · obtain ⟨k', hk', hgives'⟩ := hfrom ty' hty
        exact ⟨k', List.mem_cons_of_mem k hk', hgives'⟩
    · intro k' hk
      rcases List.mem_cons.mp hk with rfl | hk
      · exact ⟨ty, List.mem_cons_self, hgives⟩
      · obtain ⟨ty', hty', hgives'⟩ := hto k' hk
        exact ⟨ty', List.mem_cons_of_mem ty hty', hgives'⟩

/-- The shape of every node type is there, with its blocks. -/
theorem shapeStatement_mem_statements (schema : Schema) {types : List NodeType} {ty : NodeType}
    (hty : ty ∈ types) (counter : Nat) : ∃ start,
      shapeStatement ty (((blocksOf schema ty).zipIdx start).map Prod.snd) ∈
        statements schema counter types ∧
      ∀ b ∈ (blocksOf schema ty).zipIdx start,
        blockStatement schema b.2 b.1 ∈ statements schema counter types := by
  induction types generalizing counter with
  | nil => cases hty
  | cons ty' types ih =>
    rw [statements]
    rcases List.mem_cons.mp hty with rfl | hty
    · refine ⟨counter, List.mem_cons_self, ?_⟩
      intro b hb
      exact List.mem_cons_of_mem _ (List.mem_append_left _ (List.mem_map_of_mem hb))
    · obtain ⟨start, hshape, hblocks⟩ := ih hty
        (counter + ((blocksOf schema ty').zipIdx counter).length)
      refine ⟨start, List.mem_cons_of_mem _ (List.mem_append_right _ hshape), ?_⟩
      intro b hb
      exact List.mem_cons_of_mem _ (List.mem_append_right _ (hblocks b hb))

/-- The predicates of a block are terms of the vocabulary. -/
theorem predicate_blockStatement {schema : Schema} {n : Nat} {b : Block} {c : Iri × Object}
    (h : c ∈ (blockStatement schema n b).clauses) : ∃ loc, c.1 = shaclIri loc := by
  have hbounds : ∀ (bounds : Cardinality), c ∈ cardinalityClauses bounds →
      ∃ loc, c.1 = shaclIri loc := by
    intro bounds hc
    rcases List.mem_append.mp hc with hc | hc
    · split at hc
      · exact ⟨"minCount", by rw [List.mem_singleton.mp hc]⟩
      · cases hc
    · cases hmax : bounds.max with
      | none =>
        rw [hmax] at hc
        cases hc
      | some max =>
        rw [hmax] at hc
        exact ⟨"maxCount", by rw [List.mem_singleton.mp hc]⟩
  cases b with
  | property prop =>
    rcases List.mem_cons.mp h with rfl | h
    · exact ⟨"path", rfl⟩
    · rcases List.mem_append.mp h with h | h
      · exact hbounds _ h
      · exact ⟨"datatype", by rw [List.mem_singleton.mp h]⟩
  | edge edge =>
    rcases List.mem_cons.mp h with rfl | h
    · exact ⟨"path", rfl⟩
    · rcases List.mem_append.mp h with h | h
      · exact hbounds _ h
      · rcases List.mem_cons.mp h with rfl | h
        · exact ⟨"nodeKind", rfl⟩
        · obtain ⟨target, -, rfl⟩ := List.mem_map.mp h
          exact ⟨"class", rfl⟩

/-- The subjects of shapes are those that are typed so. -/
theorem mem_shapeSubjects {triples : List Triple} {k : SubjectKey} :
    k ∈ shapeSubjects triples ↔ ∃ t ∈ triples,
      (t.predicate = rdfType ∧ t.object = .iri (shaclIri "NodeShape")) ∧
        k = subjectKey t.subject := by
  rw [shapeSubjects, foldl_collects (fun (shapes : BTreeSet SubjectKey) k => k ∈ shapes)
    (fun (t : Triple) k => (t.predicate = rdfType ∧ t.object = .iri (shaclIri "NodeShape")) ∧
      k = subjectKey t.subject)]
  · simp
  · intro shapes t k
    split
    · next h =>
      rw [BTreeSet.mem_insert, or_comm]
      simp only [h, true_and, and_self]
    · next h => simp only [h, false_and, or_false]

/-- The shapes of a document are those of its node types. -/
theorem mem_shapeSubjects_statements {schema : Schema} {types : List NodeType} {counter : Nat}
    {k : SubjectKey} :
    k ∈ shapeSubjects ((statements schema counter types).flatMap Statement.triples) ↔
      ∃ ty ∈ types, k = subjectKey (.iri (shapeIriFor ty)) := by
  rw [mem_shapeSubjects]
  constructor
  · rintro ⟨t, ht, ⟨hpredicate, -⟩, rfl⟩
    obtain ⟨s, hs, ht⟩ := List.mem_flatMap.mp ht
    obtain ⟨c, hc, rfl⟩ := List.mem_map.mp ht
    rcases mem_statements hs with ⟨ty, hty, labels, rfl⟩ | ⟨n, b, -, rfl⟩
    · exact ⟨ty, hty, rfl⟩
    · obtain ⟨loc, hloc⟩ := predicate_blockStatement hc
      exact absurd (hpredicate.symm.trans hloc) (rdfType_ne_shaclIri loc)
  · rintro ⟨ty, hty, rfl⟩
    obtain ⟨start, hshape, -⟩ := shapeStatement_mem_statements schema hty counter
    refine ⟨⟨.iri (shapeIriFor ty), rdfType, .iri (shaclIri "NodeShape")⟩, ?_, ⟨rfl, rfl⟩, rfl⟩
    refine List.mem_flatMap.mpr ⟨_, hshape, ?_⟩
    rw [triples_shapeStatement]
    exact List.mem_cons_self

/-- Faithful types with different names have different shapes. -/
theorem nodup_shapes {types : List NodeType} (hfaithful : ∀ ty ∈ types, FaithfulType ty)
    (hnames : (types.map NodeType.name).Nodup) : (types.map shapeIriFor).Nodup := by
  refine List.Nodup.map_on ?_ (List.Nodup.of_map _ hnames)
  intro ty hty ty' hty' hshape
  have hiri : ∀ ty ∈ types, localName (typeIri ty) = ty.name := by
    intro ty hty
    obtain ⟨iri, hiri, hname⟩ := (hfaithful ty hty).iri
    rw [typeIri, hiri, Option.getD_some, hname]
  have htype : typeIri ty = typeIri ty' := by
    have hvalue := (String.append_left_inj "Shape").mp (Iri.mk.inj hshape)
    cases htype : typeIri ty
    cases htype' : typeIri ty'
    rw [htype, htype'] at hvalue
    exact congrArg Iri.mk hvalue
  have hname : ty.name = ty'.name := by
    rw [← hiri ty hty, ← hiri ty' hty', htype]
  exact List.inj_on_of_nodup_map hnames hty hty' hname

/-- The statements of a schema are read back to its node types. -/
theorem buildSchema_statements (schema : Schema) {types : List NodeType}
    (hfaithful : ∀ ty ∈ types, FaithfulType ty) (hnames : (types.map NodeType.name).Nodup) :
    ∃ read, buildSchema ((statements schema 0 types).flatMap Statement.triples) = .ok read ∧
      read.nodeTypes.KeyedBy NodeType.name ∧
      ∀ ty, ty ∈ read.nodeTypes.vals ↔ ∃ ty' ∈ types, ty = projected ty' := by
  have hshapes := nodup_shapes hfaithful hnames
  have hsubjects := nodup_subjects schema hshapes 0
  have hgives :
    ∀ k ∈ (shapeSubjects ((statements schema 0 types).flatMap Statement.triples)).toList,
      ∃ triples ty, (bySubject ((statements schema 0 types).flatMap Statement.triples))[k]? =
        some triples ∧ shapeType (bySubject ((statements schema 0 types).flatMap
          Statement.triples)) triples = .ok ty ∧
        ∃ ty' ∈ types, k = subjectKey (.iri (shapeIriFor ty')) ∧ ty = projected ty' := by
    intro k hk
    obtain ⟨ty, hty, rfl⟩ := mem_shapeSubjects_statements.mp (Std.ExtTreeSet.mem_toList.mp hk)
    obtain ⟨start, hshape, hblocks⟩ := shapeStatement_mem_statements schema hty 0
    refine ⟨_, _, get_index hsubjects hshape (List.cons_ne_nil _ _), ?_, ty, hty, rfl, rfl⟩
    apply shapeType_shapeStatement schema _ (hfaithful ty hty) start
    intro b hb
    have hget := get_index hsubjects (hblocks b hb) (by cases b.1 <;> exact List.cons_ne_nil _ _)
    rwa [subject_blockStatement] at hget
  obtain ⟨read, hdeclare, hfrom, hto⟩ := declareShapes_eq hgives .empty
  refine ⟨_, hdeclare, (BTreeMap.KeyedBy.empty _).insertAll _, ?_⟩
  have hmem : ∀ ty, ty ∈ read ↔ ∃ ty' ∈ types, ty = projected ty' := by
    intro ty
    constructor
    · intro hty
      obtain ⟨k, -, ty', hty', -, heq⟩ := hfrom ty hty
      exact ⟨ty', hty', heq⟩
    · rintro ⟨ty', hty, rfl⟩
      obtain ⟨read', hread, ty'', hty'', hkey, rfl⟩ := hto _ (Std.ExtTreeSet.mem_toList.mpr
        (mem_shapeSubjects_statements.mpr ⟨ty', hty, rfl⟩))
      have hshape : shapeIriFor ty' = shapeIriFor ty'' := by
        simpa using subjectKey_inj.mp hkey
      rwa [List.inj_on_of_nodup_map hshapes hty hty'' hshape]
  intro ty
  rw [Schema.empty, BTreeMap.mem_vals_insertAll, hmem]
  intro v hv w hw hkey
  obtain ⟨ty, hty, rfl⟩ := (hmem v).mp hv
  obtain ⟨ty', hty', rfl⟩ := (hmem w).mp hw
  rw [List.inj_on_of_nodup_map hnames hty hty' hkey]

end Shacl

end AtomrOntology
