import AtomrOntology.Import.Mapping

/-!
# The nodes that an import stores

Which nodes are stored, with which labels and properties, can be read off the triples. The labels
of a subject are those of the recognized classes that are objects of its triples, whatever the
predicate. A node without any is stored when a recognized object property leads to it from a
subject with labels, and has the default label.
-/

namespace AtomrOntology

/-- The IRIs in a triple. -/
def Triple.mentions (t : Triple) : List String :=
  (match t.subject with | .iri i => [i.value] | .blank _ => []) ++
    match t.object with | .iri i => [i.value] | _ => []

/-- The id of the node of an IRI. -/
def address [Blake3] (iri : String) : NodeId := Id.contentAddress (utf8 iri)

/-- Storing a stored node changes nothing. -/
theorem Ontology.upsertNode_self {o : Ontology} {n : Node} (h : o.nodes[n.id]? = some n) :
    o.upsertNode n = o := by
  have hnodes : o.nodes.insert n.id n = o.nodes := by
    ext k : 1
    rw [BTreeMap.get_insert]
    by_cases hk : n.id = k
    · rw [if_pos hk, ← hk, h]
    · rw [if_neg hk]
  rw [Ontology.upsertNode, hnodes]

namespace Mapping

variable {m : Mapping} {triples : List Triple} {t : Triple} {types : SubjectTypes}

/-- The subject and the label of a triple whose object is a recognized class. -/
def typeOf (m : Mapping) (t : Triple) : Option (String × String) :=
  match t.subject, t.object with
  | .iri subj, .iri cls =>
    (m.classes.find? (·.iri == cls.value)).map fun c => (subj.value, c.localName)
  | _, _ => none

/-- The subject, the key and the value of a recognized data property. -/
def valueOf (m : Mapping) (t : Triple) : Option (String × String × PropertyValue) :=
  if t.predicate = rdfType then none
  else
    match t.subject with
    | .blank _ => none
    | .iri subj =>
      (m.dataProperties.find? (·.1.iri == t.predicate.value)).bind fun (spec, _) =>
        (spec.value t.object).map fun value => (subj.value, spec.localName, value)

/-- The source, the label and the target of a recognized object property. -/
def linkOf (m : Mapping) (t : Triple) : Option (String × String × String) :=
  if t.predicate = rdfType ∨ (m.dataProperties.find? (·.1.iri == t.predicate.value)).isSome
    then none
  else
    match t.subject, t.object with
    | .iri subj, .iri target =>
      (m.objectProperties.find? (·.1.iri == t.predicate.value)).map fun (spec, _) =>
        (subj.value, spec.localName, target.value)
    | _, _ => none

/-- Some triple leads from the IRI to the class of the label. -/
def HasType (m : Mapping) (triples : List Triple) (iri ty : String) : Prop :=
  ∃ t ∈ triples, m.typeOf t = some (iri, ty)

/-- A type triple mentions its subject. -/
theorem mentions_of_typeOf {iri ty : String} (h : m.typeOf t = some (iri, ty)) :
    iri ∈ t.mentions := by
  unfold typeOf at h
  split at h
  · next subj cls hs ho =>
    obtain ⟨c, -, heq⟩ := Option.map_eq_some_iff.mp h
    cases heq
    simp [Triple.mentions, hs]
  · cases h

/-- A link mentions both its ends. -/
theorem mentions_of_linkOf {src label tgt : String} (h : m.linkOf t = some (src, label, tgt)) :
    src ∈ t.mentions ∧ tgt ∈ t.mentions := by
  unfold linkOf at h
  split_ifs at h
  split at h
  · next subj target hs ho =>
    obtain ⟨spec, -, heq⟩ := Option.map_eq_some_iff.mp h
    cases heq
    simp [Triple.mentions, hs, ho]
  · cases h

/-- A value is no link. -/
theorem linkOf_of_valueOf {r : String × String × PropertyValue} (h : m.valueOf t = some r) :
    m.linkOf t = none := by
  unfold valueOf at h
  split_ifs at h
  cases hs : t.subject with
  | blank b => simp [hs] at h
  | iri subj =>
    rw [hs] at h
    obtain ⟨spec, hspec, -⟩ := Option.bind_eq_some_iff.mp h
    rw [linkOf, if_pos (Or.inr (by rw [hspec]; rfl))]

/-- A type triple adds its type to those of the subject. -/
theorem typeStep_eq (m : Mapping) (types : SubjectTypes) (t : Triple) : m.typeStep types t =
    match m.typeOf t with
    | some (iri, ty) =>
      types.insert iri (if ty ∈ types[iri]?.getD [] then types[iri]?.getD []
        else types[iri]?.getD [] ++ [ty])
    | none => types := by
  obtain ⟨subject, predicate, object⟩ := t
  cases subject with
  | blank b => rfl
  | iri subj =>
    cases object with
    | blank b => rfl
    | literal lexical datatype language => rfl
    | iri cls =>
      unfold typeStep typeOf
      dsimp only
      cases hfind : m.classes.find? (·.iri == cls.value) with
      | none => exact ite_self _
      | some c =>
        have hany : m.classes.any (·.iri == cls.value) = true :=
          List.any_eq_true.mpr ⟨c, List.mem_of_find?_eq_some hfind,
            List.find?_some (p := fun c : ClassSpec => c.iri == cls.value) hfind⟩
        rw [if_neg (not_not_intro (Or.inr hany))]
        simp only [Option.map_some, List.any_beq', List.contains_eq_mem, decide_eq_true_eq]

/-- The recognized labels of a subject, without repetition. -/
theorem mem_subjectTypes (m : Mapping) (triples : List Triple) (iri ty : String) :
    ty ∈ (m.subjectTypes triples)[iri]?.getD [] ↔ m.HasType triples iri ty := by
  induction triples using List.reverseRecOn with
  | nil => simp [subjectTypes, HasType]
  | append_singleton triples t ih =>
    have hsplit : m.HasType (triples ++ [t]) iri ty ↔
        m.HasType triples iri ty ∨ m.typeOf t = some (iri, ty) := by
      simp [HasType, or_and_right, exists_or]
    rw [subjectTypes, List.foldl_concat, ← subjectTypes, typeStep_eq, hsplit, ← ih]
    cases ht : m.typeOf t with
    | none => simp
    | some r =>
      obtain ⟨iri', ty'⟩ := r
      dsimp only
      rw [BTreeMap.get_insert]
      by_cases hiri : iri' = iri
      · subst hiri
        rw [if_pos rfl]
        by_cases hmem : ty' ∈ (m.subjectTypes triples)[iri']?.getD []
        · rw [if_pos hmem]
          simp only [Option.getD_some, Option.some.injEq, Prod.mk.injEq, true_and]
          exact ⟨Or.inl, fun h => h.elim id fun heq => heq ▸ hmem⟩
        · rw [if_neg hmem]
          simp [eq_comm]
      · simp [hiri]

/-- A typed subject has a type. -/
theorem subjectTypes_ne_nil {iri : String} {labels : List String}
    (h : (m.subjectTypes triples)[iri]? = some labels) : labels ≠ [] := by
  induction triples using List.reverseRecOn generalizing labels with
  | nil => simp [subjectTypes] at h
  | append_singleton triples t ih =>
    rw [subjectTypes, List.foldl_concat, ← subjectTypes, typeStep_eq] at h
    cases ht : m.typeOf t with
    | none =>
      rw [ht] at h
      exact ih h
    | some r =>
      obtain ⟨iri', ty'⟩ := r
      rw [ht] at h
      dsimp only at h
      rw [BTreeMap.get_insert] at h
      split_ifs at h with hiri hmem
      · obtain rfl := Option.some.inj h
        exact List.ne_nil_of_mem hmem
      · obtain rfl := Option.some.inj h
        simp
      · exact ih h

/-- A subject has labels exactly if it has a type. -/
theorem mem_subjectTypes_iff (m : Mapping) (triples : List Triple) (iri : String) :
    iri ∈ m.subjectTypes triples ↔ ∃ ty, m.HasType triples iri ty := by
  simp only [← mem_subjectTypes]
  constructor
  · intro h
    obtain ⟨labels, hlabels⟩ := Option.isSome_iff_exists.mp
      (Std.ExtTreeMap.isSome_getElem?_iff_mem.mpr h)
    obtain ⟨ty, hty⟩ := List.exists_mem_of_ne_nil labels (subjectTypes_ne_nil hlabels)
    exact ⟨ty, by rwa [hlabels]⟩
  · rintro ⟨ty, hty⟩
    cases hlabels : (m.subjectTypes triples)[iri]? with
    | none => simp [hlabels] at hty
    | some labels => exact Std.ExtTreeMap.isSome_getElem?_iff_mem.mp (by rw [hlabels]; rfl)

/-- The labels that the node of an IRI is created with. -/
def labelsFor (types : SubjectTypes) (fallback : Option String) (iri : String) : List String :=
  types[iri]?.getD fallback.toList

/-- The value that a triple attaches: that of a subject with labels. -/
def assigned (m : Mapping) (types : SubjectTypes) (t : Triple) :
    Option (String × String × PropertyValue) :=
  (m.valueOf t).filter fun r => r.1 ∈ types

/-- The nodes that a triple links: the source has labels, and the target has, or gets one. -/
def linked (m : Mapping) (types : SubjectTypes) (t : Triple) : Option (String × String × String) :=
  (m.linkOf t).filter fun r => r.1 ∈ types ∧ (r.2.2 ∈ types ∨ m.defaultObjectClass.isSome)

/-- The properties of a node after some triples: later values replace earlier ones. -/
def propsAt (m : Mapping) (types : SubjectTypes) (done : List Triple) (iri : String) :
    BTreeMap String PropertyValue :=
  done.foldl (fun props t => match m.assigned types t with
    | some (subj, key, value) => if subj = iri then props.insert key value else props
    | none => props) ∅

/-- A node is stored for each subject with labels, and for each target of a link. -/
def Stored (m : Mapping) (types : SubjectTypes) (done : List Triple) (iri : String) : Prop :=
  iri ∈ types ∨ ∃ t ∈ done, ∃ src label, m.linked types t = some (src, label, iri)

/-- A further triple assigns its property. -/
theorem propsAt_concat (m : Mapping) (types : SubjectTypes) (done : List Triple) (t : Triple)
    (iri : String) : m.propsAt types (done ++ [t]) iri = match m.assigned types t with
      | some (subj, key, value) =>
        if subj = iri then (m.propsAt types done iri).insert key value
        else m.propsAt types done iri
      | none => m.propsAt types done iri := by
  rw [propsAt, List.foldl_concat]
  rfl

/-- A node without recognized labels has no properties. -/
theorem propsAt_of_not_mem (m : Mapping) (done : List Triple) {iri : String} (h : iri ∉ types) :
    m.propsAt types done iri = ∅ := by
  induction done using List.reverseRecOn with
  | nil => rfl
  | append_singleton done t ih =>
    rw [propsAt_concat, ih]
    cases hassigned : m.assigned types t with
    | none => rfl
    | some r =>
      have hmem := (Option.filter_eq_some_iff.mp hassigned).2
      refine if_neg fun heq => h ?_
      simpa [heq] using hmem

/-- A further link stores its target. -/
theorem stored_concat {done : List Triple} {iri : String} :
    m.Stored types (done ++ [t]) iri ↔
    m.Stored types done iri ∨ ∃ src label, m.linked types t = some (src, label, iri) := by
  simp [Stored, or_and_right, exists_or, or_assoc]

/-- A typed subject needs no fallback. -/
theorem labelsFor_of_mem {iri : String} (h : iri ∈ types) (fallback fallback' : Option String) :
    labelsFor types fallback iri = labelsFor types fallback' iri := by
  obtain ⟨labels, hlabels⟩ := Option.isSome_iff_exists.mp
    (Std.ExtTreeMap.isSome_getElem?_iff_mem.mpr h)
  rw [labelsFor, labelsFor, hlabels]
  rfl

/-- With types or a fallback there is a label. -/
theorem labelsFor_ne_nil {fallback : Option String} {iri : String}
    (hne : ∀ (iri : String) labels, types[iri]? = some labels → labels ≠ [])
    (h : iri ∈ types ∨ fallback.isSome) : labelsFor types fallback iri ≠ [] := by
  unfold labelsFor
  cases hlabels : types[iri]? with
  | some labels => exact hne iri labels hlabels
  | none =>
    have hmem : iri ∉ types := fun hmem => by
      simpa [hlabels] using Std.ExtTreeMap.isSome_getElem?_iff_mem.mpr hmem
    obtain ⟨f, rfl⟩ := Option.isSome_iff_exists.mp (h.resolve_left hmem)
    exact List.cons_ne_nil f []

/-- Adding labels that are there changes nothing. -/
theorem foldl_labels_of_subset {labels ls : List String} (h : ls ⊆ labels) :
    ls.foldl (fun types l => if types.any (· == l) then types else types ++ [l]) labels =
      labels := by
  induction ls with
  | nil => rfl
  | cons l ls ih =>
    have hl : labels.any (· == l) = true :=
      List.any_eq_true.mpr ⟨l, h List.mem_cons_self, beq_self_eq_true l⟩
    rw [List.foldl_cons, if_pos hl]
    exact ih fun x hx => h (List.mem_cons_of_mem l hx)

section

variable [Blake3] {o : Ontology} {iri : String} {fallback : Option String}

/-- A node that is there gets the missing labels, and otherwise one is created. -/
theorem ensureNode_eq {label : String} {extra : List String}
    (h : labelsFor types fallback iri = label :: extra) : ensureNode types o iri fallback =
      match o.nodes[address iri]? with
      | some existing =>
        let merged := { existing with
          types := (label :: extra).foldl (fun types l =>
            if types.any (· == l) then types else types ++ [l]) existing.types }
        some (merged.id, o.upsertNode merged)
      | none => some (address iri, o.upsertNode ⟨address iri, some ⟨iri⟩, label :: extra, ∅⟩) := by
  have hlabels : ∀ (n : Node) (ls : List String),
      ls.foldl Node.withLabel n = { n with types := n.types ++ ls } := by
    intro n ls
    induction ls generalizing n with
    | nil => simp
    | cons l ls ih => simp [ih, Node.withLabel]
  unfold labelsFor at h
  unfold ensureNode
  cases htypes : types[iri]? with
  | some labels =>
    rw [htypes] at h
    obtain rfl : labels = label :: extra := h
    simp only [Option.bind_some, List.head?_cons, Option.some_or, Option.bind_eq_bind,
      Option.getD_some, List.drop_one, List.tail_cons, hlabels]
    exact rfl
  | none =>
    rw [htypes] at h
    cases fallback with
    | none => cases h
    | some f =>
      obtain ⟨rfl, rfl⟩ := List.cons.inj (show [f] = label :: extra from h)
      rfl

/-- Nothing is created without a label. -/
theorem ensureNode_none (h : types[iri]? = none) : ensureNode types o iri none = none := by
  unfold ensureNode
  rw [h]
  rfl

/-- A node that is there with its labels is left as it is. -/
theorem ensureNode_present {n : Node} (hlabels : labelsFor types fallback iri ≠ [])
    (hn : o.nodes[address iri]? = some n) (hid : n.id = address iri)
    (htypes : n.types = labelsFor types fallback iri) :
    ensureNode types o iri fallback = some (address iri, o) := by
  obtain ⟨label, extra, hcons⟩ := List.exists_cons_of_ne_nil hlabels
  rw [ensureNode_eq hcons, hn]
  dsimp only
  rw [foldl_labels_of_subset (by rw [htypes, hcons]; exact List.Subset.refl _), hid,
    Ontology.upsertNode_self (hid ▸ hn)]

/-- A node that is not there is created with its labels. -/
theorem ensureNode_absent (hlabels : labelsFor types fallback iri ≠ [])
    (hn : o.nodes[address iri]? = none) : ensureNode types o iri fallback = some (address iri,
      o.upsertNode ⟨address iri, some ⟨iri⟩, labelsFor types fallback iri, ∅⟩) := by
  obtain ⟨label, extra, hcons⟩ := List.exists_cons_of_ne_nil hlabels
  rw [ensureNode_eq hcons, hn, hcons]

/-- A step either attaches a value, or links two nodes, or leaves the ontology as it is. -/
theorem projectStep_eq (m : Mapping) (types : SubjectTypes) (o : Ontology) (t : Triple) :
    m.projectStep types o t = match m.valueOf t with
      | some (subj, key, value) =>
        match ensureNode types o subj none with
        | none => o
        | some (id, o) =>
          match o.nodes[id]? with
          | some node => o.upsertNode (node.withProperty key value)
          | none => o
      | none =>
        match m.linkOf t with
        | some (subj, label, target) =>
          match ensureNode types o subj none with
          | none => o
          | some (src, o) =>
            match ensureNode types o target m.defaultObjectClass with
            | none => o
            | some (tgt, o) => o.upsertEdge (Edge.between src label tgt)
        | none => o := by
  unfold projectStep valueOf linkOf
  by_cases hpred : t.predicate = rdfType
  · simp [hpred]
  · simp only [hpred, false_or]
    cases t.subject with
    | blank b => simp
    | iri subj =>
      dsimp only
      cases hdata : m.dataProperties.find? (·.1.iri == t.predicate.value) with
      | some found =>
        obtain ⟨spec, appliesTo⟩ := found
        simp only [Option.bind_some, Option.isSome_some, if_true]
        cases spec.value t.object <;> rfl
      | none =>
        simp only [Option.bind_none, Option.isSome_none, Bool.false_eq_true, if_false]
        cases m.objectProperties.find? (·.1.iri == t.predicate.value) with
        | none => cases t.object <;> rfl
        | some found => cases t.object <;> rfl

/-- The edge of two linked nodes. -/
def edgeOf (r : String × String × String) : Edge := Edge.between (address r.1) r.2.1 (address r.2.2)

/-- The nodes of some IRIs are stored, and no others. -/
structure Holds (m : Mapping) (types : SubjectTypes)
    (props : String → BTreeMap String PropertyValue) (stored : String → Prop) (o : Ontology) :
    Prop where
  present : ∀ iri, stored iri → o.nodes[address iri]? =
    some ⟨address iri, some ⟨iri⟩, labelsFor types m.defaultObjectClass iri, props iri⟩
  only : ∀ id n, o.nodes[id]? = some n → ∃ iri, stored iri ∧ id = address iri

/-- What the ontology holds after some triples. -/
structure Describes (m : Mapping) (types : SubjectTypes) (done : List Triple) (o : Ontology) :
    Prop where
  nodes : m.Holds types (m.propsAt types done) (m.Stored types done) o
  edges : o.edges = BTreeMap.insertAll Edge.id ∅ ((done.filterMap (m.linked types)).map edgeOf)

variable {props : String → BTreeMap String PropertyValue} {stored : String → Prop}

/-- A node is there, or is created with its labels. -/
theorem Holds.ensure (h : m.Holds types props stored o)
    (hlabels : labelsFor types m.defaultObjectClass iri ≠ [])
    (hsame : labelsFor types m.defaultObjectClass iri = labelsFor types fallback iri)
    (hfresh : ¬stored iri → props iri = ∅)
    (hinj : ∀ iri', stored iri' → address iri' = address iri → iri' = iri) :
    ∃ o', ensureNode types o iri fallback = some (address iri, o') ∧
      m.Holds types props (fun iri' => stored iri' ∨ iri' = iri) o' ∧ o'.edges = o.edges := by
  have hlabels' : labelsFor types fallback iri ≠ [] := hsame ▸ hlabels
  by_cases hstored : stored iri
  · refine ⟨o, ensureNode_present hlabels' (h.present iri hstored) rfl hsame, ⟨?_, ?_⟩, rfl⟩
    · rintro iri' (hiri | rfl)
      · exact h.present iri' hiri
      · exact h.present _ hstored
    · intro id n hn
      obtain ⟨iri', hiri, hid⟩ := h.only id n hn
      exact ⟨iri', Or.inl hiri, hid⟩
  · have habsent : o.nodes[address iri]? = none := by
      cases hn : o.nodes[address iri]? with
      | none => rfl
      | some n =>
        obtain ⟨iri', hiri, hid⟩ := h.only _ n hn
        exact absurd (hinj iri' hiri hid.symm ▸ hiri) hstored
    refine ⟨_, ensureNode_absent hlabels' habsent, ⟨?_, ?_⟩, rfl⟩
    · intro iri' hiri
      rw [Ontology.upsertNode, BTreeMap.get_insert]
      by_cases heq : iri' = iri
      · subst heq
        rw [if_pos rfl, hfresh hstored, hsame]
      · have hiri := hiri.resolve_right heq
        rw [if_neg fun haddress => heq (hinj iri' hiri haddress.symm)]
        exact h.present iri' hiri
    · intro id n hn
      rw [Ontology.upsertNode, BTreeMap.get_insert] at hn
      split_ifs at hn with heq
      · exact ⟨iri, Or.inr rfl, heq.symm⟩
      · obtain ⟨iri', hiri, hid⟩ := h.only id n hn
        exact ⟨iri', Or.inl hiri, hid⟩

/-- A subject with labels is there already. -/
theorem Holds.source (h : m.Holds types props stored o)
    (hne : ∀ (iri : String) labels, types[iri]? = some labels → labels ≠ []) (hiri : iri ∈ types)
    (hstored : stored iri) : ensureNode types o iri none = some (address iri, o) :=
  ensureNode_present (labelsFor_ne_nil hne (Or.inl hiri)) (h.present iri hstored) rfl
    (labelsFor_of_mem hiri _ _)

/-- Setting a property of a node that is there. -/
theorem Holds.attach (h : m.Holds types props stored o) {node : Node} (key : String)
    (value : PropertyValue) (hstored : stored iri) (hnode : o.nodes[address iri]? = some node)
    (hinj : ∀ iri', stored iri' → address iri' = address iri → iri' = iri) :
    m.Holds types (fun iri' => if iri = iri' then (props iri').insert key value else props iri')
      stored (o.upsertNode (node.withProperty key value)) := by
  have heqNode := Option.some.inj (hnode.symm.trans (h.present iri hstored))
  have hid : (node.withProperty key value).id = address iri := congrArg Node.id heqNode
  constructor
  · intro iri' hiri
    rw [Ontology.upsertNode, BTreeMap.get_insert]
    by_cases heq : iri = iri'
    · subst heq
      rw [if_pos hid, heqNode]
      simp [Node.withProperty]
    · rw [if_neg fun haddress => heq (hinj iri' hiri (haddress.symm.trans hid)).symm]
      simpa [heq] using h.present iri' hiri
  · intro id n hn
    rw [Ontology.upsertNode, BTreeMap.get_insert] at hn
    split_ifs at hn with heq
    · exact ⟨iri, hstored, heq.symm.trans hid⟩
    · exact h.only id n hn

namespace Describes

variable {done : List Triple}

/-- A triple that attaches and links nothing. -/
theorem skip (h : m.Describes types done o) (hassigned : m.assigned types t = none)
    (hlinked : m.linked types t = none) : m.Describes types (done ++ [t]) o where
  nodes := by
    have hprops : m.propsAt types (done ++ [t]) = m.propsAt types done := by
      funext iri
      rw [propsAt_concat, hassigned]
    have hstored : m.Stored types (done ++ [t]) = m.Stored types done := by
      funext iri
      rw [stored_concat, hlinked]
      simp
    rw [hprops, hstored]
    exact h.nodes
  edges := by
    rw [h.edges, List.filterMap_append, List.filterMap_cons, hlinked, List.filterMap_nil,
      List.append_nil]

/-- A triple with a recognized value. -/
theorem step_value (h : m.Describes types done o) {subj key : String} {value : PropertyValue}
    (hvalue : m.valueOf t = some (subj, key, value))
    (hne : ∀ (iri : String) labels, types[iri]? = some labels → labels ≠ [])
    (hinj : ∀ iri iri', m.Stored types done iri → m.Stored types done iri' →
      address iri = address iri' → iri = iri') :
    m.Describes types (done ++ [t]) (m.projectStep types o t) := by
  have hlinked : m.linked types t = none := by
    rw [linked, linkOf_of_valueOf hvalue]
    rfl
  rw [projectStep_eq, hvalue]
  dsimp only
  by_cases hsubj : subj ∈ types
  · have hassigned : m.assigned types t = some (subj, key, value) := by
      rw [assigned, hvalue]
      exact Option.filter_some_pos (by simpa using hsubj)
    have hprops : m.propsAt types (done ++ [t]) = fun iri =>
        if subj = iri then (m.propsAt types done iri).insert key value
        else m.propsAt types done iri := by
      funext iri
      rw [propsAt_concat, hassigned]
    have hstored : m.Stored types (done ++ [t]) = m.Stored types done := by
      funext iri
      rw [stored_concat, hlinked]
      simp
    have hnode := h.nodes.present subj (Or.inl hsubj)
    rw [h.nodes.source hne hsubj (Or.inl hsubj)]
    dsimp only
    rw [hnode]
    refine ⟨?_, ?_⟩
    · rw [hprops, hstored]
      exact h.nodes.attach key value (Or.inl hsubj) hnode fun iri hiri =>
        hinj iri subj hiri (Or.inl hsubj)
    · rw [List.filterMap_append, List.filterMap_cons, hlinked, List.filterMap_nil, List.append_nil]
      exact h.edges
  · have hassigned : m.assigned types t = none := by
      rw [assigned, hvalue]
      exact Option.filter_some_neg (by simpa using hsubj)
    rw [ensureNode_none (by simpa using hsubj)]
    exact h.skip hassigned hlinked

/-- A triple with a recognized link. -/
theorem step_link (h : m.Describes types done o) {src label tgt : String}
    (hvalue : m.valueOf t = none) (hlink : m.linkOf t = some (src, label, tgt))
    (hne : ∀ (iri : String) labels, types[iri]? = some labels → labels ≠ [])
    (hinj : ∀ iri iri', m.Stored types (done ++ [t]) iri → m.Stored types (done ++ [t]) iri' →
      address iri = address iri' → iri = iri') :
    m.Describes types (done ++ [t]) (m.projectStep types o t) := by
  have hassigned : m.assigned types t = none := by
    rw [assigned, hvalue]
    rfl
  rw [projectStep_eq, hvalue, hlink]
  dsimp only
  by_cases hsrc : src ∈ types
  · rw [h.nodes.source hne hsrc (Or.inl hsrc)]
    dsimp only
    by_cases htgt : tgt ∈ types ∨ m.defaultObjectClass.isSome
    · have hlinked : m.linked types t = some (src, label, tgt) := by
        rw [linked, hlink]
        refine Option.filter_some_pos ?_
        simpa using ⟨hsrc, htgt⟩
      have hprops : m.propsAt types (done ++ [t]) = m.propsAt types done := by
        funext iri
        rw [propsAt_concat, hassigned]
      have hstored : m.Stored types (done ++ [t]) = fun iri =>
          m.Stored types done iri ∨ iri = tgt := by
        funext iri
        rw [stored_concat, hlinked]
        simp [eq_comm]
      have hfresh : ¬m.Stored types done tgt → m.propsAt types done tgt = ∅ :=
        fun hnot => m.propsAt_of_not_mem done fun hmem => hnot (Or.inl hmem)
      rw [hstored] at hinj
      obtain ⟨o', hensure, hnodes, hedges⟩ := h.nodes.ensure (labelsFor_ne_nil hne htgt) rfl hfresh
        fun iri hiri => hinj iri tgt (Or.inl hiri) (Or.inr rfl)
      rw [hensure]
      refine ⟨?_, ?_⟩
      · rw [hprops, hstored]
        exact ⟨hnodes.present, hnodes.only⟩
      · change (o'.upsertEdge (edgeOf (src, label, tgt))).edges = _
        rw [Ontology.upsertEdge, hedges, h.edges, List.filterMap_append, List.filterMap_cons,
          hlinked, List.filterMap_nil, List.map_append, BTreeMap.insertAll, BTreeMap.insertAll,
          List.foldl_append]
        rfl
    · have hlinked : m.linked types t = none := by
        rw [linked, hlink]
        exact Option.filter_some_neg (decide_eq_false fun hboth => htgt hboth.2)
      rw [not_or, Option.not_isSome_iff_eq_none] at htgt
      rw [htgt.2, ensureNode_none (by simpa using htgt.1)]
      exact h.skip hassigned hlinked
  · have hlinked : m.linked types t = none := by
      rw [linked, hlink]
      exact Option.filter_some_neg (decide_eq_false fun hboth => hsrc hboth.1)
    rw [ensureNode_none (by simpa using hsrc)]
    exact h.skip hassigned hlinked

/-- One triple. -/
theorem step (h : m.Describes types done o) (t : Triple)
    (hne : ∀ (iri : String) labels, types[iri]? = some labels → labels ≠ [])
    (hinj : ∀ iri iri', m.Stored types (done ++ [t]) iri → m.Stored types (done ++ [t]) iri' →
      address iri = address iri' → iri = iri') :
    m.Describes types (done ++ [t]) (m.projectStep types o t) := by
  cases hvalue : m.valueOf t with
  | some r =>
    exact h.step_value hvalue hne fun iri iri' hiri hiri' =>
      hinj iri iri' (stored_concat.mpr (Or.inl hiri)) (stored_concat.mpr (Or.inl hiri'))
  | none =>
    cases hlink : m.linkOf t with
    | some r => exact h.step_link hvalue hlink hne hinj
    | none =>
      have hassigned : m.assigned types t = none := by rw [assigned, hvalue]; rfl
      have hlinked : m.linked types t = none := by rw [linked, hlink]; rfl
      rw [projectStep_eq, hvalue, hlink]
      exact h.skip hassigned hlinked

end Describes

/-- The IRIs that some triples mention. -/
def Mentioned (triples : List Triple) (iri : String) : Prop := ∃ t ∈ triples, iri ∈ t.mentions

omit [Blake3] in
/-- What is stored is mentioned. -/
theorem Stored.mentioned {done : List Triple} (hdone : done ⊆ triples)
    (h : m.Stored (m.subjectTypes triples) done iri) : Mentioned triples iri := by
  obtain hmem | ⟨t, ht, src, label, hlinked⟩ := h
  · obtain ⟨ty, t, ht, htype⟩ := (m.mem_subjectTypes_iff triples iri).mp hmem
    exact ⟨t, ht, mentions_of_typeOf htype⟩
  · have hlink := (Option.filter_eq_some_iff.mp hlinked).1
    exact ⟨t, hdone ht, (mentions_of_linkOf hlink).2⟩

/-- Each typed subject gets a node before the triples are walked. -/
theorem holds_precreate (hnodes : o.nodes = ∅)
    (hne : ∀ (iri : String) labels, types[iri]? = some labels → labels ≠ [])
    (hinj : ∀ iri iri', iri ∈ types → iri' ∈ types → address iri = address iri' → iri = iri')
    {iris : List String} (hiris : ∀ iri ∈ iris, iri ∈ types) :
    m.Holds types (fun _ => ∅) (· ∈ iris) (precreate types o iris) ∧
      (precreate types o iris).edges = o.edges := by
  induction iris using List.reverseRecOn with
  | nil => exact ⟨⟨by simp, by simp [precreate, hnodes]⟩, rfl⟩
  | append_singleton iris iri ih =>
    have hmem : iri ∈ types := hiris iri (by simp)
    have hmems : ∀ iri' ∈ iris, iri' ∈ types := fun iri' h => hiris iri' (by simp [h])
    obtain ⟨hholds, hedges⟩ := ih hmems
    obtain ⟨o', hensure, hholds', hedges'⟩ :=
      hholds.ensure (labelsFor_ne_nil hne (Or.inl hmem)) (labelsFor_of_mem hmem _ none)
        (fun _ => rfl) fun iri' hiri' => hinj iri' iri (hmems iri' hiri') hmem
    have hlast : precreate types o (iris ++ [iri]) = o' := by
      rw [precreate, List.foldl_concat, ← precreate, hensure]
    rw [hlast]
    exact ⟨by simpa [or_comm] using hholds', hedges'.trans hedges⟩

/-- What an import leaves, if no two mentioned IRIs have the same id. -/
theorem describes_imported (m : Mapping) (triples : List Triple)
    (hinj : ∀ iri iri', Mentioned triples iri → Mentioned triples iri' →
      address iri = address iri' → iri = iri') :
    m.Describes (m.subjectTypes triples) triples (m.imported triples) := by
  have hne : ∀ (iri : String) labels, (m.subjectTypes triples)[iri]? = some labels → labels ≠ [] :=
    fun _ _ => subjectTypes_ne_nil
  have hstored : ∀ {done}, done ⊆ triples → ∀ iri iri',
      m.Stored (m.subjectTypes triples) done iri → m.Stored (m.subjectTypes triples) done iri' →
      address iri = address iri' → iri = iri' := fun hdone iri iri' hiri hiri' =>
    hinj iri iri' (hiri.mentioned hdone) (hiri'.mentioned hdone)
  obtain ⟨hholds, hedges⟩ := holds_precreate (m := m) (o := m.declare) rfl hne
    (fun iri iri' hiri hiri' =>
      hstored (List.nil_subset triples) iri iri' (Or.inl hiri) (Or.inl hiri'))
    fun iri (hiri : iri ∈ (m.subjectTypes triples).keys) => Std.ExtTreeMap.mem_keys.mp hiri
  have hrun : ∀ done, done ⊆ triples → m.Describes (m.subjectTypes triples) done
      (done.foldl (m.projectStep (m.subjectTypes triples)) (precreate (m.subjectTypes triples)
        m.declare (m.subjectTypes triples).keys)) := by
    intro done
    induction done using List.reverseRecOn with
    | nil =>
      intro _
      refine ⟨⟨fun iri hiri => ?_, fun id n hn => ?_⟩, hedges⟩
      · obtain hmem | ⟨t, ht, -⟩ := hiri
        · exact hholds.present iri (Std.ExtTreeMap.mem_keys.mpr hmem)
        · cases ht
      · obtain ⟨iri, hiri, hid⟩ := hholds.only id n hn
        exact ⟨iri, Or.inl (Std.ExtTreeMap.mem_keys.mp hiri), hid⟩
    | append_singleton done t ih =>
      intro hdone
      rw [List.foldl_concat]
      exact (ih fun t' ht' => hdone (List.mem_append_left _ ht')).step t hne (hstored hdone)
  exact hrun triples (List.Subset.refl _)

/-- Every label of a stored node is that of a class that some triple of the node leads to; or the
node has no such triple, is the target of a recognized object property and has the default
label. -/
theorem labels_of_imported (m : Mapping) (triples : List Triple)
    (hinj : ∀ iri iri', Mentioned triples iri → Mentioned triples iri' →
      address iri = address iri' → iri = iri') :
    ∀ n ∈ (m.imported triples).nodes.vals, ∃ iri, n.iri = some ⟨iri⟩ ∧ ∀ ty ∈ n.types,
      m.HasType triples iri ty ∨ (¬∃ ty', m.HasType triples iri ty') ∧
        m.defaultObjectClass = some ty ∧
        ∃ t ∈ triples, ∃ src label, m.linkOf t = some (src, label, iri) := by
  intro n hn
  have hdescribes := m.describes_imported triples hinj
  obtain ⟨id, hid⟩ := BTreeMap.mem_vals.mp hn
  obtain ⟨iri, hstored, rfl⟩ := hdescribes.nodes.only id n hid
  obtain rfl := Option.some.inj (hid.symm.trans (hdescribes.nodes.present iri hstored))
  refine ⟨iri, rfl, fun ty hty => ?_⟩
  by_cases hmem : iri ∈ m.subjectTypes triples
  · refine Or.inl ((m.mem_subjectTypes triples iri ty).mp ?_)
    rwa [labelsFor_of_mem hmem m.defaultObjectClass none, labelsFor] at hty
  · obtain ⟨t, ht, src, label, hlinked⟩ := hstored.resolve_left hmem
    have hnone : (m.subjectTypes triples)[iri]? = none := by simpa using hmem
    refine Or.inr ⟨fun htype => hmem ((m.mem_subjectTypes_iff triples iri).mpr htype), ?_, t, ht,
      src, label, (Option.filter_eq_some_iff.mp hlinked).1⟩
    rw [labelsFor, hnone, Option.getD_none, Option.mem_toList] at hty
    exact hty

end

private def foafPerson : Iri := ⟨"http://xmlns.com/foaf/0.1/Person"⟩

/-- A triple from a subject to the class of persons. -/
private def toPerson (predicate : Iri) : Triple := ⟨.iri ⟨"urn:a"⟩, predicate, .iri foafPerson⟩

private theorem address_toPerson (predicate : Iri) : ∀ iri iri',
    Mentioned [toPerson predicate] iri → Mentioned [toPerson predicate] iri' →
      @address Blake3.beginning iri = @address Blake3.beginning iri' → iri = iri' := by
  intro iri iri' h h'
  simp only [Mentioned, exists_eq_left, Triple.mentions, toPerson,
    List.cons_append, List.nil_append, List.mem_cons, List.not_mem_nil, or_false] at h h'
  rcases h with rfl | rfl <;> rcases h' with rfl | rfl <;> decide +kernel

private theorem person_stored :
    ((@imported Blake3.beginning Foaf.mapping [toPerson rdfType]).nodes[
      @address Blake3.beginning "urn:a"]?.map Node.types) = some ["Person"] := by
  decide +kernel

/-- The labels of a subject with a type. -/
theorem labels_of_person :
    ∃ n ∈ (@imported Blake3.beginning Foaf.mapping [toPerson rdfType]).nodes.vals,
    n.types = ["Person"] ∧
      ∃ iri, n.iri = some ⟨iri⟩ ∧ ∀ ty ∈ n.types,
        Foaf.mapping.HasType [toPerson rdfType] iri ty ∨
        (¬∃ ty', Foaf.mapping.HasType [toPerson rdfType] iri ty') ∧
          Foaf.mapping.defaultObjectClass = some ty ∧
          ∃ t ∈ [toPerson rdfType], ∃ src label,
            Foaf.mapping.linkOf t = some (src, label, iri) := by
  obtain ⟨n, hn, htypes⟩ := Option.map_eq_some_iff.mp person_stored
  have hmem := BTreeMap.mem_vals.mpr ⟨_, hn⟩
  exact ⟨n, hmem, htypes, @labels_of_imported Blake3.beginning Foaf.mapping [toPerson rdfType]
    (address_toPerson rdfType) n hmem⟩

private def rdfsSeeAlso : Iri := ⟨"http://www.w3.org/2000/01/rdf-schema#seeAlso"⟩

private theorem seeAlso_stored :
    ((@imported Blake3.beginning Foaf.mapping [toPerson rdfsSeeAlso]).nodes[
      @address Blake3.beginning "urn:a"]?.map fun n => (n.iri, n.types)) = some (some ⟨"urn:a"⟩,
      ["Person"]) := by
  decide +kernel

/-- A reference to the class of persons makes its subject a person, although it is neither a type
triple nor of the form that stands for one, and nothing leads to the subject. -/
theorem seeAlso_makes_person :
    (∃ n ∈ (@imported Blake3.beginning Foaf.mapping [toPerson rdfsSeeAlso]).nodes.vals,
      n.iri = some ⟨"urn:a"⟩ ∧ "Person" ∈ n.types) ∧
    (¬∃ t ∈ [toPerson rdfsSeeAlso], (t.predicate = rdfType ∨ t.predicate = foafPerson) ∧
      t.subject = .iri ⟨"urn:a"⟩ ∧ t.object = .iri foafPerson) ∧
    ¬∃ t ∈ [toPerson rdfsSeeAlso], ∃ src label,
    Foaf.mapping.linkOf t = some (src, label, "urn:a") := by
  refine ⟨?_, by decide, by simp [toPerson, linkOf, Foaf.mapping, rdfsSeeAlso, rdfType]⟩
  obtain ⟨n, hn, hfields⟩ := Option.map_eq_some_iff.mp seeAlso_stored
  obtain ⟨hiri, htypes⟩ := Prod.mk.inj hfields
  exact ⟨n, BTreeMap.mem_vals.mpr ⟨_, hn⟩, hiri, by simp [htypes]⟩

end Mapping

end AtomrOntology
