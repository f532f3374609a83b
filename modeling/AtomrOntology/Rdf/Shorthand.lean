import AtomrOntology.Rdf.Curies

/-!
# Shorthand in JSON-LD

The types of a subject may be written as `@type` instead of as values of `rdf:type`, and a text
alone instead of a value object. What is written shorter is kept in a list: the triples of the two
documents differ in what the entries of the list give in either form.
-/

namespace AtomrOntology.JsonLd

variable {vocab : Vocabulary}

/-- What may be written shorter: the name of a type, or a text under a key. -/
inductive Shorthand where
  | type (name : String)
  | text (key s : String)
deriving DecidableEq

/-- The name of a type that is written shorter. -/
def Shorthand.typeName : Shorthand → Option String
  | .type name => some name
  | .text _ _ => none

/-- The values under a key: a text may lose its value object, and a type is left out. -/
inductive AbridgesItems (vocab : Vocabulary) (key : String) :
    List Json → List Json → List Shorthand → Prop
  | nil : AbridgesItems vocab key [] [] []
  | keep (v : Json) {items items' : List Json} {marks : List Shorthand} :
      AbridgesItems vocab key items items' marks →
      AbridgesItems vocab key (v :: items) (v :: items') marks
  | text (s : String) {items items' : List Json} {marks : List Shorthand} :
      AbridgesItems vocab key items items' marks →
      AbridgesItems vocab key (.obj [("@value", .str s)] :: items) (.str s :: items')
        (.text key s :: marks)
  | type (name : String) {items items' : List Json} {marks : List Shorthand} :
      expandIri key vocab = rdfType → AbridgesItems vocab key items items' marks →
      AbridgesItems vocab key (.obj [("@id", .str name)] :: items) items' (.type name :: marks)

/-- The values of `@type`, with some names more. -/
inductive AddsTypes : List Json → List Json → List String → Prop
  | nil : AddsTypes [] [] []
  | keep (v : Json) {items items' : List Json} {names : List String} :
      AddsTypes items items' names → AddsTypes (v :: items) (v :: items') names
  | add (name : String) {items items' : List Json} {names : List String} :
      AddsTypes items items' names → AddsTypes items (.str name :: items') (name :: names)

/-- The entries of a node object, with what is written shorter and the types that are added. An
entry without values may be left out, and one for the types be new. -/
inductive AbridgesEntries (vocab : Vocabulary) : List (String × Json) → List (String × Json) →
    List Shorthand → List String → Prop
  | nil : AbridgesEntries vocab [] [] [] []
  | id (v : Json) {entries entries' : List (String × Json)} {marks : List Shorthand}
      {names : List String} : AbridgesEntries vocab entries entries' marks names →
      AbridgesEntries vocab (("@id", v) :: entries) (("@id", v) :: entries') marks names
  | type {v v' : Json} {added : List String} {entries entries' : List (String × Json)}
      {marks : List Shorthand} {names : List String} : AddsTypes (flatten v) (flatten v') added →
      AbridgesEntries vocab entries entries' marks names →
      AbridgesEntries vocab (("@type", v) :: entries) (("@type", v') :: entries') marks
        (added ++ names)
  | newType {v' : Json} {added : List String} {entries entries' : List (String × Json)}
      {marks : List Shorthand} {names : List String} : AddsTypes [] (flatten v') added →
      AbridgesEntries vocab entries entries' marks names →
      AbridgesEntries vocab entries (("@type", v') :: entries') marks (added ++ names)
  | predicate {key : String} {v v' : Json} {found : List Shorthand}
      {entries entries' : List (String × Json)} {marks : List Shorthand} {names : List String} :
      key ≠ "@id" → key ≠ "@type" → AbridgesItems vocab key (flatten v) (flatten v') found →
      AbridgesEntries vocab entries entries' marks names →
      AbridgesEntries vocab ((key, v) :: entries) ((key, v') :: entries') (found ++ marks) names
  | emptied {key : String} {v : Json} {found : List Shorthand}
      {entries entries' : List (String × Json)} {marks : List Shorthand} {names : List String} :
      key ≠ "@id" → key ≠ "@type" → AbridgesItems vocab key (flatten v) [] found →
      AbridgesEntries vocab entries entries' marks names →
      AbridgesEntries vocab ((key, v) :: entries) entries' (found ++ marks) names

/-- A node object: the types that are added are those that are left out. -/
inductive AbridgesNode (vocab : Vocabulary) : Json → Json → List Shorthand → Prop
  | same (v : Json) : AbridgesNode vocab v v []
  | object {entries entries' : List (String × Json)} {marks : List Shorthand}
      {names : List String} : AbridgesEntries vocab entries entries' marks names →
      names.Perm (marks.filterMap Shorthand.typeName) →
      AbridgesNode vocab (.obj entries) (.obj entries') marks

/-- The node objects, with what is written shorter in those that have an id. -/
inductive AbridgesGraph (vocab : Vocabulary) :
    List Json → List Json → List (Subject × Shorthand) → Prop
  | nil : AbridgesGraph vocab [] [] []
  | cons {node node' : Json} {found : List Shorthand} {nodes nodes' : List Json}
      {marks : List (Subject × Shorthand)} : AbridgesNode vocab node node' found →
      AbridgesGraph vocab nodes nodes' marks →
      AbridgesGraph vocab (node :: nodes) (node' :: nodes')
        (((nodeId node).elim [] fun id => found.map (subjectFromId id, ·)) ++ marks)

/-- A document, and the same one with shorthand. -/
structure Abridges (doc doc' : Json) (marks : List (Subject × Shorthand)) : Prop where
  sameContext : doc.get "@context" = doc'.get "@context"
  nodes : AbridgesGraph (context doc) (graph doc) (graph doc') marks

/-- The object that a node reference is read as. -/
def reference (vocab : Vocabulary) (name : String) : Object :=
  match stripPrefix ['_', ':'] name.toList with
  | some label => .blank (.ofList label)
  | none => .iri (expandIri name vocab)

/-- The triple of the long form. -/
def Shorthand.long (vocab : Vocabulary) (subject : Subject) : Shorthand → Triple
  | .type name => ⟨subject, rdfType, reference vocab name⟩
  | .text key s => ⟨subject, expandIri key vocab, .literal s xsdString none⟩

/-- What a name under `@type` gives. -/
def typeTriple (vocab : Vocabulary) (subject : Subject) (name : String) : Triple :=
  ⟨subject, expandIri name vocab, .iri (expandIri name vocab)⟩

/-- The triple of the short form, if it gives one. -/
def Shorthand.short (vocab : Vocabulary) (subject : Subject) (m : Shorthand) : Option Triple :=
  m.typeName.map (typeTriple vocab subject)

section

variable [SerdeJson] {subject : Subject}

/-- A reference is read as the IRI or the blank node that it names. -/
theorem valueToObject_reference (vocab : Vocabulary) (name : String) :
    valueToObject (.obj [("@id", .str name)]) vocab = some (reference vocab name) := by
  unfold valueToObject reference
  simp only [Json.asObject, Option.bind_eq_bind, Option.bind_some, List.lookup_cons_self,
    Json.asStr_str]
  cases stripPrefix ['_', ':'] name.toList <;> rfl

/-- The triples of some values under a key. -/
def itemTriples (vocab : Vocabulary) (subject : Subject) (key : String) (items : List Json) :
    List Triple :=
  items.filterMap fun v => (valueToObject v vocab).map fun obj =>
    ⟨subject, expandIri key vocab, obj⟩

/-- The triples of some types. -/
def typeTriples (vocab : Vocabulary) (subject : Subject) (items : List Json) : List Triple :=
  items.filterMap fun v => v.asStr.map (typeTriple vocab subject)

/-- Types are read as type triples. -/
theorem entryTriples_type (v : Json) :
    entryTriples vocab subject ("@type", v) = typeTriples vocab subject (flatten v) := rfl

/-- Other keys are read as predicates of their items. -/
theorem entryTriples_key {key : String} (hid : key ≠ "@id") (htype : key ≠ "@type") (v : Json) :
    entryTriples vocab subject (key, v) = itemTriples vocab subject key (flatten v) := by
  simp only [entryTriples, if_neg hid, if_neg htype]
  rfl

/-- The values give what the shorter ones give, and the long form of each that is shorter. -/
theorem AbridgesItems.perm {key : String} {items items' : List Json} {marks : List Shorthand}
    (h : AbridgesItems vocab key items items' marks) (subject : Subject) :
    (itemTriples vocab subject key items).Perm
      (itemTriples vocab subject key items' ++ marks.map (Shorthand.long vocab subject)) := by
  induction h with
  | nil => exact .refl _
  | @keep v items items' marks _ ih =>
    cases hv : valueToObject v vocab with
    | none => simpa [itemTriples, hv] using ih
    | some obj => simpa [itemTriples, hv] using ih.cons ⟨subject, expandIri key vocab, obj⟩
  | @text s items items' marks _ ih =>
    have hlong : valueToObject (.obj [("@value", .str s)]) vocab =
        some (.literal s xsdString none) := rfl
    have hshort : valueToObject (.str s) vocab = none := rfl
    simp only [itemTriples, List.filterMap_cons, hlong, hshort, Option.map_some, Option.map_none,
      List.map_cons]
    exact (ih.cons _).trans List.perm_middle.symm
  | @type name items items' marks hkey _ ih =>
    simp only [itemTriples, List.filterMap_cons, valueToObject_reference, Option.map_some, hkey,
      List.map_cons]
    simp only [itemTriples, hkey] at ih
    exact (ih.cons _).trans List.perm_middle.symm

omit [SerdeJson] in
/-- More types give more triples. -/
theorem AddsTypes.perm {items items' : List Json} {names : List String}
    (h : AddsTypes items items' names) (subject : Subject) :
    (typeTriples vocab subject items ++ names.map (typeTriple vocab subject)).Perm
      (typeTriples vocab subject items') := by
  induction h with
  | nil => exact .refl _
  | @keep v items items' names _ ih =>
    cases hv : v.asStr with
    | none => simpa [typeTriples, hv] using ih
    | some name => simpa [typeTriples, hv] using ih.cons (typeTriple vocab subject name)
  | @add name items items' names _ ih =>
    rw [List.map_cons]
    exact List.perm_middle.trans (ih.cons _)

omit [SerdeJson] in
/-- The second and the third of four lists may change places. -/
theorem append_swap_middle {α : Type} (a b c d : List α) :
    (a ++ b ++ (c ++ d)).Perm (a ++ c ++ (b ++ d)) := by
  simp only [List.append_assoc]
  exact (List.perm_append_comm_assoc b c d).append_left a

/-- The entries with the added types give what the shorter ones give, and the long forms. -/
theorem AbridgesEntries.perm {entries entries' : List (String × Json)} {marks : List Shorthand}
    {names : List String} (h : AbridgesEntries vocab entries entries' marks names)
    (subject : Subject) :
    (entries.flatMap (entryTriples vocab subject) ++ names.map (typeTriple vocab subject)).Perm
      (entries'.flatMap (entryTriples vocab subject) ++
        marks.map (Shorthand.long vocab subject)) := by
  induction h with
  | nil => exact .refl _
  | id v _ ih => exact ih
  | @type v v' added entries entries' marks names hadds _ ih =>
    rw [List.flatMap_cons, List.flatMap_cons, entryTriples_type, entryTriples_type, List.map_append,
      List.append_assoc (typeTriples vocab subject (flatten v'))]
    exact (append_swap_middle _ _ _ _).trans ((hadds.perm subject).append ih)
  | @newType v' added entries entries' marks names hadds _ ih =>
    rw [List.flatMap_cons, entryTriples_type, List.map_append, List.append_assoc]
    exact (List.perm_append_comm_assoc _ _ _).trans ((hadds.perm subject).append ih)
  | @predicate key v v' found entries entries' marks names hid htype hitems _ ih =>
    rw [List.flatMap_cons, List.flatMap_cons, entryTriples_key hid htype,
      entryTriples_key hid htype, List.map_append, List.append_assoc]
    exact ((hitems.perm subject).append ih).trans (append_swap_middle _ _ _ _)
  | @emptied key v found entries entries' marks names hid htype hitems _ ih =>
    rw [List.flatMap_cons, entryTriples_key hid htype, List.map_append, List.append_assoc]
    exact ((hitems.perm subject).append ih).trans (List.perm_append_comm_assoc _ _ _)

omit [SerdeJson] in
/-- The subject of a node is never abridged. -/
theorem lookup_abridges {entries entries' : List (String × Json)} {marks : List Shorthand}
    {names : List String} (h : AbridgesEntries vocab entries entries' marks names) :
    entries'.lookup "@id" = entries.lookup "@id" := by
  induction h with
  | nil => rfl
  | id v _ ih => rw [List.lookup_cons_self, List.lookup_cons_self]
  | type _ _ ih => simpa [List.lookup_cons] using ih
  | newType _ _ ih => simpa [List.lookup_cons] using ih
  | predicate hid _ _ _ ih => simpa [List.lookup_cons, beq_false_of_ne hid.symm] using ih
  | emptied hid _ _ _ ih => simpa [List.lookup_cons, beq_false_of_ne hid.symm] using ih

omit [SerdeJson] in
/-- An abridged node has the same subject. -/
theorem AbridgesNode.nodeId_eq {node node' : Json} {marks : List Shorthand}
    (h : AbridgesNode vocab node node' marks) : nodeId node' = nodeId node := by
  cases h with
  | same => rfl
  | object hentries _ =>
    simp only [nodeId, Json.asObject, Option.bind_some, lookup_abridges hentries]

/-- What is written shorter gives the short forms instead of the long ones. -/
theorem AbridgesNode.perm {node node' : Json} {marks : List Shorthand}
    (h : AbridgesNode vocab node node' marks) (subject : Subject) :
    (triplesAs vocab subject node ++ marks.filterMap (Shorthand.short vocab subject)).Perm
      (triplesAs vocab subject node' ++ marks.map (Shorthand.long vocab subject)) := by
  cases h with
  | same => exact .refl _
  | @object entries entries' _ names hentries hnames =>
    have hshort : marks.filterMap (Shorthand.short vocab subject) =
        (marks.filterMap Shorthand.typeName).map (typeTriple vocab subject) := by
      rw [List.map_filterMap]
      rfl
    rw [hshort]
    exact ((hnames.symm.map _).append_left _).trans (hentries.perm subject)

/-- The triples of a document, with the short forms, are those of the shorter one, with the long
forms. -/
theorem AbridgesGraph.perm {nodes nodes' : List Json} {marks : List (Subject × Shorthand)}
    (h : AbridgesGraph vocab nodes nodes' marks) :
    (nodes.flatMap (nodeTriples vocab) ++ marks.filterMap fun m => m.2.short vocab m.1).Perm
      (nodes'.flatMap (nodeTriples vocab) ++ marks.map fun m => m.2.long vocab m.1) := by
  induction h with
  | nil => exact .refl _
  | @cons node node' found nodes nodes' marks hnode _ ih =>
    rw [List.flatMap_cons, List.flatMap_cons, nodeTriples_eq, nodeTriples_eq, hnode.nodeId_eq,
      List.filterMap_append, List.map_append]
    refine (append_swap_middle _ _ _ _).trans (List.Perm.trans ?_ (append_swap_middle _ _ _ _))
    refine List.Perm.append ?_ ih
    cases nodeId node with
    | none => exact .refl _
    | some id =>
      simp only [Option.map_some, Option.getD_some, Option.elim_some, List.filterMap_map,
        List.map_map]
      exact hnode.perm (subjectFromId id)

/-- A type that means the same as `@type`: it is `rdf:type` itself. -/
def Shorthand.Kept (vocab : Vocabulary) (m : Shorthand) : Prop :=
  ∃ name, m = .type name ∧ stripPrefix ['_', ':'] name.toList = none ∧
    expandIri name vocab = rdfType

/-- A triple that gives a subject a type other than `rdf:type`. -/
def givesType (t : Triple) : Bool := t.predicate = rdfType ∧ t.object ≠ .iri rdfType

omit [SerdeJson] in
/-- A written out type gives a type unless the shorthand is kept. -/
theorem givesType_long (vocab : Vocabulary) (subject : Subject) (name : String) :
    givesType (Shorthand.long vocab subject (.type name)) = false ↔
      (Shorthand.type name).Kept vocab := by
  have hkept : (Shorthand.type name).Kept vocab ↔
      stripPrefix ['_', ':'] name.toList = none ∧ expandIri name vocab = rdfType := by
    constructor
    · rintro ⟨_, hname, h⟩
      cases hname
      exact h
    · exact fun h => ⟨name, rfl, h⟩
  rw [hkept]
  simp only [givesType, Shorthand.long, true_and, decide_eq_false_iff_not, ne_eq, not_not,
    reference]
  cases stripPrefix ['_', ':'] name.toList with
  | none => simp
  | some label => simp

omit [SerdeJson] in
/-- A type by shorthand gives none. -/
theorem givesType_typeTriple (vocab : Vocabulary) (subject : Subject) (name : String) :
    givesType (typeTriple vocab subject name) = false := by
  refine decide_eq_false fun h => h.2 ?_
  have hiri : expandIri name vocab = rdfType := h.1
  rw [typeTriple, hiri]

omit [SerdeJson] in
/-- The long and the short forms are the same triples only if everything is a type that is kept. -/
theorem short_perm_long_iff (marks : List (Subject × Shorthand)) :
    (marks.filterMap fun m => m.2.short vocab m.1).Perm (marks.map fun m => m.2.long vocab m.1) ↔
      ∀ m ∈ marks, m.2.Kept vocab := by
  constructor
  · intro hperm m hm
    -- a text gives no triple, so there is none
    have hall : ∀ m ∈ marks, ∃ name, m.2 = .type name := by
      have hlen := hperm.length_eq
      rw [List.length_map, List.length_filterMap_eq_countP, List.countP_eq_length] at hlen
      intro m hm
      have hsome := hlen m hm
      cases hm2 : m.2 with
      | type name => exact ⟨name, rfl⟩
      | text key s => simp [hm2, Shorthand.short, Shorthand.typeName] at hsome
    -- and no short form gives a type
    have hnone : ∀ t ∈ marks.filterMap fun m => m.2.short vocab m.1, givesType t = false := by
      intro t ht
      obtain ⟨a, -, ha⟩ := List.mem_filterMap.mp ht
      obtain ⟨name, -, rfl⟩ := Option.map_eq_some_iff.mp ha
      exact givesType_typeTriple vocab _ name
    obtain ⟨name, hname⟩ := hall m hm
    have hlong := hnone _ (hperm.mem_iff.mpr (List.mem_map_of_mem hm))
    rw [hname] at hlong ⊢
    exact (givesType_long vocab m.1 name).mp hlong
  · intro h
    refine List.Perm.of_eq ?_
    induction marks with
    | nil => rfl
    | cons m marks ih =>
      rw [List.forall_mem_cons] at h
      obtain ⟨⟨name, hname, hblank, hiri⟩, hrest⟩ := h
      have hshort : m.2.short vocab m.1 = some (m.2.long vocab m.1) := by
        rw [hname]
        simp [Shorthand.short, Shorthand.typeName, Shorthand.long, typeTriple, reference, hblank,
          hiri]
      rw [List.filterMap_cons, List.map_cons, ih hrest, hshort]

/-- Shorthand leaves the triples as they are exactly if all that is written shorter is the type
`rdf:type`. -/
theorem parse_perm_iff_kept {doc doc' : Json} {marks : List (Subject × Shorthand)}
    (h : Abridges doc doc' marks) :
    (parse doc).Perm (parse doc') ↔ ∀ m ∈ marks, m.2.Kept (context doc) := by
  have hcontext : context doc' = context doc := by rw [context, context, h.sameContext]
  rw [parse, parse, hcontext, ← short_perm_long_iff]
  have hperm := h.nodes.perm
  constructor
  · intro heq
    exact (List.perm_append_left_iff _).mp (hperm.trans (heq.symm.append_right _))
  · intro heq
    exact (List.perm_append_right_iff _).mp (hperm.trans (heq.symm.append_left _))

/-- A triple that gives the type `rdf:type`. -/
def isTypeType (t : Triple) : Bool := t.predicate = rdfType ∧ t.object = .iri rdfType

omit [SerdeJson] in
theorem Shorthand.Kept.isTypeType {name : String} (h : (Shorthand.type name).Kept vocab)
    (subject : Subject) : isTypeType (typeTriple vocab subject name) = true ∧
      JsonLd.isTypeType ⟨subject, rdfType, reference vocab name⟩ = true := by
  obtain ⟨_, hname, hblank, hiri⟩ := h
  cases hname
  constructor
  · simp [JsonLd.isTypeType, typeTriple, hiri]
  · simp [JsonLd.isTypeType, reference, hblank, hiri]

/-- The triples but those that give the type `rdf:type`. -/
def others (triples : List Triple) : List Triple := triples.filter fun t => !isTypeType t

omit [SerdeJson] in
@[simp] theorem others_append (xs ys : List Triple) : others (xs ++ ys) = others xs ++ others ys :=
  List.filter_append _ _

omit [SerdeJson] in
/-- A type that is stated to be one is left out. -/
theorem others_cons_of_isTypeType {t : Triple} (h : isTypeType t = true) (triples : List Triple) :
    others (t :: triples) = others triples := List.filter_cons_of_neg (by simp [h])

omit [SerdeJson] in
/-- A triple in front of others does not matter. -/
theorem others_cons_congr {xs ys : List Triple} (h : others xs = others ys) (t : Triple) :
    others (t :: xs) = others (t :: ys) := by
  unfold others at *
  rw [List.filter_cons, List.filter_cons, h]

/-- Kept items mean the same apart from stated types. -/
theorem AbridgesItems.others_eq {key : String} {items items' : List Json} {marks : List Shorthand}
    (h : AbridgesItems vocab key items items' marks) (hkept : ∀ m ∈ marks, m.Kept vocab) :
    others (itemTriples vocab subject key items) =
    others (itemTriples vocab subject key items') := by
  induction h with
  | nil => rfl
  | @keep v items items' marks _ ih =>
    unfold itemTriples at ih ⊢
    rw [List.filterMap_cons, List.filterMap_cons]
    split
    · exact ih hkept
    · exact others_cons_congr (ih hkept) _
  | text s _ ih =>
    obtain ⟨_, hname, -⟩ := hkept _ List.mem_cons_self
    cases hname
  | @type name items items' marks hkey _ ih =>
    rw [List.forall_mem_cons] at hkept
    have hread : itemTriples vocab subject key (.obj [("@id", .str name)] :: items) =
        ⟨subject, rdfType, reference vocab name⟩ :: itemTriples vocab subject key items := by
      simp [itemTriples, valueToObject_reference, hkey]
    rw [hread, others_cons_of_isTypeType (hkept.1.isTypeType subject).2, ih hkept.2]

omit [SerdeJson] in
/-- Kept types mean the same apart from stated types. -/
theorem AddsTypes.others_eq {items items' : List Json} {names : List String}
    (h : AddsTypes items items' names) (hkept : ∀ name ∈ names, (Shorthand.type name).Kept vocab) :
    others (typeTriples vocab subject items) = others (typeTriples vocab subject items') := by
  induction h with
  | nil => rfl
  | keep v _ ih =>
    unfold typeTriples at ih ⊢
    rw [List.filterMap_cons, List.filterMap_cons]
    split
    · exact ih hkept
    · exact others_cons_congr (ih hkept) _
  | @add name items items' names _ ih =>
    rw [List.forall_mem_cons] at hkept
    have hread : typeTriples vocab subject (.str name :: items') =
        typeTriple vocab subject name :: typeTriples vocab subject items' := rfl
    rw [hread, others_cons_of_isTypeType (hkept.1.isTypeType subject).1, ih hkept.2]

/-- Kept entries mean the same apart from stated types. -/
theorem AbridgesEntries.others_eq {entries entries' : List (String × Json)} {marks : List Shorthand}
    {names : List String} (h : AbridgesEntries vocab entries entries' marks names)
    (hkept : ∀ m ∈ marks, m.Kept vocab)
    (hnames : ∀ name ∈ names, (Shorthand.type name).Kept vocab) :
    others (entries.flatMap (entryTriples vocab subject)) =
      others (entries'.flatMap (entryTriples vocab subject)) := by
  induction h with
  | nil => rfl
  | id v _ ih => exact ih hkept hnames
  | type hadds _ ih =>
    rw [List.forall_mem_append] at hnames
    simp only [List.flatMap_cons, entryTriples_type, others_append, hadds.others_eq hnames.1,
      ih hkept hnames.2]
  | newType hadds _ ih =>
    rw [List.forall_mem_append] at hnames
    have hnone : others (typeTriples vocab subject []) = _ := hadds.others_eq hnames.1
    simp only [List.flatMap_cons, entryTriples_type, others_append, ← hnone, ih hkept hnames.2]
    rfl
  | predicate hid htype hitems _ ih =>
    rw [List.forall_mem_append] at hkept
    simp only [List.flatMap_cons, entryTriples_key hid htype, others_append,
      hitems.others_eq hkept.1, ih hkept.2 hnames]
  | emptied hid htype hitems _ ih =>
    rw [List.forall_mem_append] at hkept
    simp only [List.flatMap_cons, entryTriples_key hid htype, others_append,
      hitems.others_eq hkept.1, ih hkept.2 hnames]
    rfl

/-- Kept nodes mean the same apart from stated types. -/
theorem AbridgesGraph.others_eq {nodes nodes' : List Json} {marks : List (Subject × Shorthand)}
    (h : AbridgesGraph vocab nodes nodes' marks) (hkept : ∀ m ∈ marks, m.2.Kept vocab) :
    others (nodes.flatMap (nodeTriples vocab)) = others (nodes'.flatMap (nodeTriples vocab)) := by
  induction h with
  | nil => rfl
  | @cons node node' found nodes nodes' marks hnode _ ih =>
    rw [List.forall_mem_append] at hkept
    rw [List.flatMap_cons, List.flatMap_cons, others_append, others_append, ih hkept.2,
      nodeTriples_eq, nodeTriples_eq, hnode.nodeId_eq]
    refine congrArg (· ++ _) ?_
    cases hid : nodeId node with
    | none => rfl
    | some id =>
      have hfound : ∀ m ∈ found, m.Kept vocab := by
        intro m hm
        refine hkept.1 (subjectFromId id, m) ?_
        rw [hid]
        exact List.mem_map_of_mem hm
      cases hnode with
      | same => rfl
      | @object entries entries' _ names hentries hnames =>
        refine hentries.others_eq hfound fun name hname => ?_
        obtain ⟨m, hm, htype⟩ := List.mem_filterMap.mp (hnames.mem_iff.mp hname)
        cases m with
        | type other =>
          obtain rfl := Option.some.inj htype
          exact hfound _ hm
        | text key s => cases htype

/-- Beside the type `rdf:type`, the triples are the same and in the same order. -/
theorem others_parse_eq {doc doc' : Json} {marks : List (Subject × Shorthand)}
    (h : Abridges doc doc' marks) (hkept : ∀ m ∈ marks, m.2.Kept (context doc)) :
    others (parse doc) = others (parse doc') := by
  have hcontext : context doc' = context doc := by rw [context, context, h.sameContext]
  rw [parse, parse, hcontext]
  exact h.nodes.others_eq hkept

end

end AtomrOntology.JsonLd
