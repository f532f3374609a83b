import AtomrOntology.Core.Grouping
import AtomrOntology.Core.Nesting
import AtomrOntology.Core.PrettyText
import AtomrOntology.Rdf.Adapter
import AtomrOntology.Rdf.JsonLd
import AtomrOntology.Rdf.ReadsBack

/-!
# Writing JSON-LD

Each subject becomes a node object whose entries list, for each predicate, the objects. The
reader expands prefixed names with the vocabulary that the writer put in the context, also
in IRIs that were written in full: a term comes back as itself exactly if it is not read as
something else.
-/

namespace AtomrOntology

namespace JsonLd

section

variable {α β : Type} {f : α → Option β}

/-- What a loop that may fail collects. -/
theorem forall₂_of_mapM {xs : List α} {ys : List β} (h : xs.mapM f = some ys) :
    List.Forall₂ (fun x y => f x = some y) xs ys := by
  induction xs generalizing ys with
  | nil =>
    obtain rfl := Option.some.inj h
    exact .nil
  | cons x xs ih =>
    rw [List.mapM_cons, Option.bind_eq_bind, Option.bind_eq_some_iff] at h
    obtain ⟨y, hy, hrest⟩ := h
    rw [Option.bind_eq_bind, Option.bind_eq_some_iff] at hrest
    obtain ⟨others, hothers, hys⟩ := hrest
    obtain rfl := Option.some.inj hys
    exact .cons hy (ih hothers)

/-- Not all members can be mapped if one cannot. -/
theorem mapM_eq_none_iff {xs : List α} : xs.mapM f = none ↔ ∃ x ∈ xs, f x = none := by
  induction xs with
  | nil => simp
  | cons x xs ih =>
    rw [List.mapM_cons]
    cases hx : f x with
    | none => simp [hx]
    | some y =>
      cases hxs : xs.mapM f with
      | none => simpa [hx] using ih.mp hxs
      | some ys =>
        have hnot : ¬∃ x ∈ xs, f x = none := fun hex => by simp [ih.mpr hex] at hxs
        simpa [hx] using hnot

end

/-- The key that the triples of a subject are grouped under. -/
def subjectKey : Subject → String
  | .iri i => i.value
  | .blank b => "_:" ++ b

/-- `object_to_json`. -/
def objectToJson : Object → Json
  | .iri i => .obj [("@id", .str i.value)]
  | .blank label => .obj [("@id", .str ("_:" ++ label))]
  | .literal lexical datatype language =>
    let m : BTreeMap String Json := (∅ : BTreeMap String Json).insert "@value" (.str lexical)
    match language with
    | some lang => .obj (m.insert "@language" (.str lang)).toList
    | none => .obj (m.insert "@type" (.str datatype.value)).toList

/-- Push the object of a triple to what a node object has under the predicate. The push panics
where that is not an array. -/
def pushObject (obj : BTreeMap String Json) (t : Triple) : Option (BTreeMap String Json) :=
  match obj[t.predicate.value]?.getD (.arr []) with
  | .arr items => some (obj.insert t.predicate.value (.arr (items ++ [objectToJson t.object])))
  | _ => none

/-- The node object of a subject. -/
def nodeObject (subject : String) (triples : List Triple) : Option Json :=
  (triples.foldlM pushObject ((∅ : BTreeMap String Json).insert "@id" (.str subject))).map
    fun obj =>
    .obj obj.toList

/-- The node objects of the subjects. -/
def nodeObjects (triples : List Triple) : Option (List Json) :=
  (BTreeMap.groupBy (fun t => subjectKey t.subject) triples).toList.mapM fun g => nodeObject g.1 g.2

/-- The prefixes that a vocabulary binds. -/
def contextEntries (vocab : Vocabulary) : List (String × Json) :=
  vocab.namespaces.toList.map fun ns => (ns.1, .str ns.2.value)

/-- How the reader takes an object that was written. -/
def objectBack (vocab : Vocabulary) : Object → Object
  | .iri i =>
    match stripPrefix ['_', ':'] i.value.toList with
    | some label => .blank (.ofList label)
    | none => .iri (expandIri i.value vocab)
  | .blank label => .blank label
  | .literal lexical _ (some lang) => .literal lexical rdfLangString (some lang)
  | .literal lexical datatype none => .literal lexical (expandIri datatype.value vocab) none

/-- How the reader takes a triple that was written. Under `@type` it only reads plain texts. -/
def tripleBack (vocab : Vocabulary) (t : Triple) : Option Triple :=
  if t.predicate.value = "@type" then none
  else some ⟨subjectFromId (subjectKey t.subject), expandIri t.predicate.value vocab,
    objectBack vocab t.object⟩

section

variable {vocab : Vocabulary}

/-- A text that the reader takes for a full IRI. -/
def Absolute (s : String) : Prop :=
  (startsWith s "http://" || startsWith s "https://" || startsWith s "urn:") = true

/-- A text still starts so when it goes on. -/
theorem startsWith_append {s pre : String} (h : startsWith s pre = true) (rest : String) :
    startsWith (s ++ rest) pre = true := by
  rw [startsWith, List.isPrefixOf_iff_prefix] at h ⊢
  rw [String.toList_append]
  exact h.trans (List.prefix_append _ _)

/-- A full IRI stays one when it goes on. -/
theorem Absolute.append {s : String} (h : Absolute s) (rest : String) : Absolute (s ++ rest) := by
  simp only [Absolute, Bool.or_eq_true] at h ⊢
  obtain (h | h) | h := h
  · exact Or.inl (Or.inl (startsWith_append h rest))
  · exact Or.inl (Or.inr (startsWith_append h rest))
  · exact Or.inr (startsWith_append h rest)

/-- How a full IRI begins. -/
theorem Absolute.head {s : String} (h : Absolute s) :
    s.toList.head? = some 'h' ∨ s.toList.head? = some 'u' := by
  simp only [Absolute, Bool.or_eq_true, startsWith, List.isPrefixOf_iff_prefix] at h
  obtain (⟨rest, hrest⟩ | ⟨rest, hrest⟩) | ⟨rest, hrest⟩ := h
  · exact Or.inl (hrest ▸ rfl)
  · exact Or.inl (hrest ▸ rfl)
  · exact Or.inr (hrest ▸ rfl)

/-- A full IRI is no blank node. -/
theorem Absolute.not_blank {s : String} (h : Absolute s) :
    stripPrefix ['_', ':'] s.toList = none := by
  rw [stripPrefix, if_neg]
  rintro ⟨rest, hrest⟩
  have hhead := h.head
  rw [← hrest] at hhead
  simp at hhead

/-- A full IRI is no keyword. -/
theorem Absolute.ne_type {s : String} (h : Absolute s) : s ≠ "@type" := by
  rintro rfl
  have hhead := h.head
  simp at hhead

/-- What a name is expanded to: itself, or a full IRI where the bases are full IRIs. -/
theorem expandIri_cases (habs : ∀ base ∈ vocab.namespaces.vals, Absolute base.value) (s : String) :
    (expandIri s vocab).value = s ∨ Absolute (expandIri s vocab).value := by
  rw [expandIri]
  split
  · exact Or.inl rfl
  · cases hcurie : vocab.expandCurie s with
    | none => exact Or.inl rfl
    | some iri =>
      simp only [Vocabulary.expandCurie, Option.bind_eq_bind, Option.bind_eq_some_iff] at hcurie
      obtain ⟨parts, -, base, hbase, hiri⟩ := hcurie
      obtain rfl := Option.some.inj hiri
      exact Or.inr ((habs base (BTreeMap.mem_vals.mpr ⟨_, hbase⟩)).append _)

/-- A full IRI expands to itself. -/
theorem expandIri_of_absolute {s : String} (h : Absolute s) : expandIri s vocab = ⟨s⟩ := by
  unfold expandIri
  exact if_pos h

/-- With full bases, expanding twice is expanding once. -/
theorem expandIri_expandIri (habs : ∀ base ∈ vocab.namespaces.vals, Absolute base.value)
    (s : String) :
    expandIri (expandIri s vocab).value vocab = expandIri s vocab := by
  obtain h | h := expandIri_cases habs s
  · rw [h]
  · exact expandIri_of_absolute h

theorem subjectKey_subjectFromId (key : String) : subjectKey (subjectFromId key) = key := by
  rw [subjectFromId]
  cases hstrip : stripPrefix ['_', ':'] key.toList with
  | none => rfl
  | some label =>
    have hkey : key.toList = ['_', ':'] ++ label := stripPrefix_eq_some.mp hstrip
    rw [← String.toList_inj, hkey, subjectKey, String.toList_append]
    exact congrArg ("_:".toList ++ ·) String.toList_ofList

/-- What is read back is read back as itself. -/
theorem objectBack_objectBack (habs : ∀ base ∈ vocab.namespaces.vals, Absolute base.value)
    (object : Object) : objectBack vocab (objectBack vocab object) = objectBack vocab object := by
  cases object with
  | iri i =>
    cases hstrip : stripPrefix ['_', ':'] i.value.toList with
    | some label => simp only [objectBack, hstrip]
    | none =>
      have hagain : stripPrefix ['_', ':'] (expandIri i.value vocab).value.toList = none := by
        obtain h | h := expandIri_cases habs i.value
        · rw [h, hstrip]
        · exact h.not_blank
      simp only [objectBack, hstrip, hagain, expandIri_expandIri habs]
  | blank label => rfl
  | literal lexical datatype language =>
    cases language with
    | none => simp only [objectBack, expandIri_expandIri habs]
    | some lang => rfl

/-- Where the bases are full IRIs, what was read back is read back as itself. -/
theorem tripleBack_of_tripleBack (habs : ∀ base ∈ vocab.namespaces.vals, Absolute base.value)
    {t back : Triple} (h : tripleBack vocab t = some back) : tripleBack vocab back = some back := by
  by_cases htype : t.predicate.value = "@type"
  · rw [tripleBack, if_pos htype] at h
    cases h
  · rw [tripleBack, if_neg htype] at h
    obtain rfl := Option.some.inj h
    have hagain : (expandIri t.predicate.value vocab).value ≠ "@type" := by
      obtain h | h := expandIri_cases habs t.predicate.value
      · rwa [h]
      · exact h.ne_type
    rw [tripleBack, if_neg hagain, subjectKey_subjectFromId, expandIri_expandIri habs,
      objectBack_objectBack habs]

end

/-- What the object of a literal has under a key. -/
theorem lookup_literal (lexical key value k : String) :
    (((∅ : BTreeMap String Json).insert "@value" (.str lexical)).insert key
      (.str value)).toList.lookup k =
      if key = k then some (.str value) else if "@value" =
      k then some (.str lexical) else none := by
  rw [BTreeMap.lookup_toList, BTreeMap.get_insert, BTreeMap.get_insert]
  by_cases hk : key = k
  · rw [if_pos hk, if_pos hk]
  · rw [if_neg hk, if_neg hk, Std.ExtTreeMap.getElem?_empty]

/-- All that a push can do. -/
theorem pushObject_cases {obj obj' : BTreeMap String Json} {t : Triple}
    (h : pushObject obj t = some obj') : ∃ items,
      obj[t.predicate.value]?.getD (.arr []) = .arr items ∧
        obj' = obj.insert t.predicate.value (.arr (items ++ [objectToJson t.object])) := by
  cases hitems : obj[t.predicate.value]?.getD (.arr []) with
  | arr items =>
    rw [pushObject, hitems] at h
    exact ⟨items, rfl, (Option.some.inj h).symm⟩
  | _ =>
    rw [pushObject, hitems] at h
    cases h

/-- The context binds what the vocabulary binds. -/
theorem context_eq (vocab : Vocabulary) (graph : List Json) :
    context (.obj [("@context", .obj (contextEntries vocab)), ("@graph", .arr graph)]) = vocab := by
  have hbind : ∀ (entries : List (String × Iri)) (v : Vocabulary),
      entries.foldl (fun v ns => v.bind ns.1 ns.2) v = ⟨v.namespaces.insertMany entries⟩ := by
    intro entries
    induction entries with
    | nil => simp
    | cons ns entries ih =>
      intro v
      rw [List.foldl_cons, ih, Std.ExtTreeMap.insertMany_cons]
      rfl
  rw [context]
  change (contextEntries vocab).foldl _ _ = vocab
  rw [contextEntries, List.foldl_map]
  change vocab.namespaces.toList.foldl (fun v ns => v.bind ns.1 ns.2) .empty = vocab
  rw [hbind]
  exact congrArg Vocabulary.mk
    (Std.ExtTreeMap.ofList_eq_insertMany_empty.symm.trans (BTreeMap.ofList_toList vocab.namespaces))

section

variable [SerdeJson] {vocab : Vocabulary}

/-- An object is read back. -/
theorem valueToObject_objectToJson (object : Object) :
    valueToObject (objectToJson object) vocab = some (objectBack vocab object) := by
  cases object with
  | iri i =>
    cases hstrip : stripPrefix ['_', ':'] i.value.toList with
    | none => simp [valueToObject, objectToJson, objectBack, Json.asObject, hstrip]
    | some label => simp [valueToObject, objectToJson, objectBack, Json.asObject, hstrip]
  | blank label =>
    have hstrip : stripPrefix ['_', ':'] ('_' :: ':' :: label.toList) = some label.toList :=
      stripPrefix_append ['_', ':'] label.toList
    simp [valueToObject, objectToJson, objectBack, Json.asObject, hstrip]
  | literal lexical datatype language =>
    cases language with
    | none =>
      have hlookup := lookup_literal lexical "@type" datatype.value
      simp [valueToObject, objectToJson, objectBack, Json.asObject, hlookup]
    | some lang =>
      have hlookup := lookup_literal lexical "@language" lang
      simp [valueToObject, objectToJson, objectBack, Json.asObject, hlookup]

/-- A document that the reader of texts gives back: it holds no floats and opens at most so many
levels. -/
structure Plain (levels : Nat) (j : Json) : Prop where
  reread : j.reread = some j
  depth : j.depth ≤ levels

theorem Plain.str (levels : Nat) (s : String) : Plain levels (.str s) := ⟨rfl, Nat.zero_le levels⟩

/-- More levels allow more. -/
theorem Plain.mono {levels more : Nat} {j : Json} (h : Plain levels j) (hle : levels ≤ more) :
    Plain more j := ⟨h.reread, h.depth.trans hle⟩

/-- An array of plain documents is plain, one level up. -/
theorem Plain.arr {levels : Nat} {items : List Json} (h : ∀ j ∈ items, Plain levels j) :
    Plain (levels + 1) (.arr items) where
  reread := by
    have hitems : Json.rereadItems items = some items := by
      induction items with
      | nil => rfl
      | cons j items ih =>
        rw [Json.rereadItems_cons, (h j List.mem_cons_self).reread, Option.bind_some,
          ih fun k hk => h k (List.mem_cons_of_mem j hk), Option.map_some]
    rw [Json.reread, hitems, Option.map_some]
  depth := Nat.succ_le_succ (Json.depthItems_le.mpr fun j hj => (h j hj).depth)

/-- So is an object. -/
theorem Plain.obj {levels : Nat} {entries : List (String × Json)}
    (h : ∀ e ∈ entries, Plain levels e.2) : Plain (levels + 1) (.obj entries) where
  reread := by
    have hentries : Json.rereadEntries entries = some entries := by
      induction entries with
      | nil => rfl
      | cons e entries ih =>
        rw [Json.rereadEntries_cons, (h e List.mem_cons_self).reread, Option.bind_some,
          ih fun k hk => h k (List.mem_cons_of_mem e hk), Option.map_some]
    rw [Json.reread, hentries, Option.map_some]
  depth := Nat.succ_le_succ (Json.depthEntries_le.mpr fun e he => (h e he).depth)

/-- A plain document that does not nest too deeply is parsed as itself. -/
theorem Plain.reparse {levels : Nat} {j : Json} (h : Plain levels j)
    (hlevels : levels < Json.recursionLimit) : j.reparse = .ok j := by
  rw [Json.reparse, if_pos (h.depth.trans_lt hlevels), h.reread]

/-- The entries of a map of plain values. -/
theorem Plain.map {levels : Nat} {m : BTreeMap String Json}
    (h : ∀ (key : String) (value : Json), m[key]? = some value → Plain levels value) :
    Plain (levels + 1) (.obj m.toList) :=
  .obj fun e he => h e.1 e.2 (Std.ExtTreeMap.mem_toList_iff_getElem?_eq_some.mp he)

/-- A further entry keeps a map plain. -/
theorem Plain.insert {levels : Nat} {m : BTreeMap String Json} {key : String} {value : Json}
    (h : ∀ (k : String) (v : Json), m[k]? = some v → Plain levels v) (hvalue : Plain levels value)
    {k : String} {v : Json} (hv : (m.insert key value)[k]? = some v) : Plain levels v := by
  rw [BTreeMap.get_insert] at hv
  by_cases hk : key = k
  · rw [if_pos hk] at hv
    exact Option.some.inj hv ▸ hvalue
  · rw [if_neg hk] at hv
    exact h k v hv

/-- The document of an object nests once at most. -/
theorem plain_objectToJson (object : Object) : Plain 1 (objectToJson object) := by
  have hentry : ∀ (key text : String), ∀ e ∈ [(key, Json.str text)], Plain 0 e.2 := by
    intro key text e he
    exact List.mem_singleton.mp he ▸ Plain.str 0 text
  have hvalue : ∀ (lexical k : String) (v : Json),
      ((∅ : BTreeMap String Json).insert "@value" (.str lexical))[k]? = some v → Plain 0 v :=
    fun lexical k v hv => Plain.insert (by simp) (Plain.str 0 lexical) hv
  cases object with
  | iri i => exact .obj (hentry "@id" i.value)
  | blank label => exact .obj (hentry "@id" ("_:" ++ label))
  | literal lexical datatype language =>
    cases language with
    | none => exact .map fun k v hv => Plain.insert (hvalue lexical) (Plain.str 0 datatype.value) hv
    | some lang => exact .map fun k v hv => Plain.insert (hvalue lexical) (Plain.str 0 lang) hv

/-- What a pushed object adds to the triples of an entry. -/
theorem entryTriples_push (subject : Subject) (t : Triple) (items : List Json)
    (hid : t.predicate.value ≠ "@id") :
    entryTriples vocab subject (t.predicate.value, .arr (items ++ [objectToJson t.object])) =
      entryTriples vocab subject (t.predicate.value, .arr items) ++
        ((tripleBack vocab t).map fun back => { back with subject }).toList := by
  by_cases htype : t.predicate.value = "@type"
  · have htext : (objectToJson t.object).asStr = none := by
      cases t.object with
      | iri i => rfl
      | blank label => rfl
      | literal lexical datatype language => cases language <;> rfl
    simp [entryTriples, htype, tripleBack, flatten, List.filterMap_append, htext]
  · simp [entryTriples, hid, htype, tripleBack, flatten, List.filterMap_append,
      valueToObject_objectToJson]

/-- The object under construction: the id of its subject and an array of plain documents under every
other key. -/
structure Growing (subject : String) (obj : BTreeMap String Json) : Prop where
  id : obj["@id"]? = some (.str subject)
  arrays : ∀ (key : String) (value : Json), key ≠ "@id" → obj[key]? = some value →
    ∃ items, value = .arr items ∧ ∀ j ∈ items, Plain 1 j

/-- A push adds its triple to what the object is read as. -/
theorem Growing.push {subject : String} {obj obj' : BTreeMap String Json}
    (hobj : Growing subject obj)
    (vocab : Vocabulary) {t : Triple} (h : pushObject obj t = some obj') (s : Subject) :
    t.predicate.value ≠ "@id" ∧ Growing subject obj' ∧
      (obj'.toList.flatMap (entryTriples vocab s)).Perm
        (obj.toList.flatMap (entryTriples vocab s) ++
          ((tripleBack vocab t).map fun back => { back with subject := s }).toList) := by
  obtain ⟨items, hitems, rfl⟩ := pushObject_cases h
  have hid : t.predicate.value ≠ "@id" := by
    intro hid
    rw [hid, hobj.id] at hitems
    cases hitems
  have hplain : ∀ j ∈ items, Plain 1 j := by
    cases hold : obj[t.predicate.value]? with
    | none =>
      rw [hold] at hitems
      obtain rfl := Json.arr.inj hitems
      exact fun j hj => absurd hj List.not_mem_nil
    | some value =>
      obtain ⟨others, rfl, hothers⟩ := hobj.arrays _ value hid hold
      rw [hold] at hitems
      exact Json.arr.inj hitems ▸ hothers
  refine ⟨hid, ⟨?_, ?_⟩, BTreeMap.flatMap_insert_perm _ _ ?_⟩
  · rw [BTreeMap.get_insert, if_neg hid, hobj.id]
  · intro key value hkey hvalue
    rw [BTreeMap.get_insert] at hvalue
    by_cases h : t.predicate.value = key
    · rw [if_pos h] at hvalue
      refine ⟨_, (Option.some.inj hvalue).symm, fun j hj => ?_⟩
      rcases List.mem_append.mp hj with hj | hj
      · exact hplain j hj
      · exact List.mem_singleton.mp hj ▸ plain_objectToJson t.object
    · rw [if_neg h] at hvalue
      exact hobj.arrays key value hkey hvalue
  · rw [entryTriples_push s t items hid]
    congr 1
    cases hold : obj[t.predicate.value]? with
    | none =>
      rw [hold] at hitems
      obtain rfl := Json.arr.inj hitems
      simp [entryTriples, hid, flatten]
    | some value =>
      rw [hold] at hitems
      obtain rfl : value = .arr items := hitems
      simp

/-- A node object starts with its id. -/
theorem Growing.start (subject : String) :
    Growing subject ((∅ : BTreeMap String Json).insert "@id" (.str subject)) where
  id := by rw [BTreeMap.get_insert, if_pos rfl]
  arrays key value hkey hvalue := by
    rw [BTreeMap.get_insert, if_neg (Ne.symm hkey), Std.ExtTreeMap.getElem?_empty] at hvalue
    cases hvalue

/-- Pushes add their triples to what the object is read as. -/
theorem Growing.pushes {subject : String} {obj obj' : BTreeMap String Json}
    (hobj : Growing subject obj) (vocab : Vocabulary) {triples : List Triple}
    (h : triples.foldlM pushObject obj = some obj') (s : Subject) :
    Growing subject obj' ∧ (obj'.toList.flatMap (entryTriples vocab s)).Perm
      (obj.toList.flatMap (entryTriples vocab s) ++ triples.flatMap fun t =>
        ((tripleBack vocab t).map fun back => { back with subject := s }).toList) := by
  induction triples generalizing obj with
  | nil =>
    obtain rfl := Option.some.inj h
    exact ⟨hobj, by simp⟩
  | cons t triples ih =>
    rw [List.foldlM_cons, Option.bind_eq_bind, Option.bind_eq_some_iff] at h
    obtain ⟨next, hpush, hrest⟩ := h
    obtain ⟨-, hnext, hperm⟩ := hobj.push vocab hpush s
    obtain ⟨hlast, hmore⟩ := ih hnext hrest
    refine ⟨hlast, hmore.trans ?_⟩
    rw [List.flatMap_cons, ← List.append_assoc]
    exact hperm.append_right _

/-- A node object nests three times at most. -/
theorem Growing.plain {subject : String} {obj : BTreeMap String Json} (h : Growing subject obj) :
    Plain 3 (.obj obj.toList) := by
  refine .map fun key value hvalue => ?_
  by_cases hid : key = "@id"
  · rw [hid, h.id] at hvalue
    exact Option.some.inj hvalue ▸ Plain.str 2 subject
  · obtain ⟨items, rfl, hitems⟩ := h.arrays key value hid hvalue
    exact .arr hitems

theorem plain_nodeObject {subject : String} {triples : List Triple} {node : Json}
    (h : nodeObject subject triples = some node) : Plain 3 node := by
  obtain ⟨obj, hobj, rfl⟩ := Option.map_eq_some_iff.mp h
  exact ((Growing.start subject).pushes .empty hobj (.blank "")).1.plain

/-- A node object is read as the triples of its subject. -/
theorem nodeTriples_nodeObject {subject : String} {triples : List Triple} {node : Json}
    (vocab : Vocabulary) (h : nodeObject subject triples = some node)
    (hsubject : ∀ t ∈ triples, subjectKey t.subject = subject) :
    (nodeTriples vocab node).Perm (triples.flatMap fun t => (tripleBack vocab t).toList) := by
  obtain ⟨obj, hobj, rfl⟩ := Option.map_eq_some_iff.mp h
  obtain ⟨hgrown, hperm⟩ := (Growing.start subject).pushes vocab hobj (subjectFromId subject)
  have hlookup : obj.toList.lookup "@id" = some (.str subject) := by
    rw [BTreeMap.lookup_toList, hgrown.id]
  have hread : nodeTriples vocab (.obj obj.toList) =
      obj.toList.flatMap (entryTriples vocab (subjectFromId subject)) := by
    simp [nodeTriples, Json.asObject, hlookup]
  have hstart : (((∅ : BTreeMap String Json).insert "@id" (.str subject)).toList.flatMap
      (entryTriples vocab (subjectFromId subject))).Perm [] := by
    have hinsert := BTreeMap.toList_insert_perm (∅ : BTreeMap String Json) "@id" (.str subject)
    refine (hinsert.flatMap_right _).trans ?_
    simp [entryTriples]
  have hsame : ∀ t ∈ triples,
      ((tripleBack vocab t).map fun back => { back with subject := subjectFromId subject }).toList =
        (tripleBack vocab t).toList := by
    intro t ht
    by_cases htype : t.predicate.value = "@type"
    · simp [tripleBack, htype]
    · simp [tripleBack, htype, hsubject t ht]
  rw [hread, ← List.flatMap_congr hsame]
  exact hperm.trans (hstart.append_right _)

/-- The node objects are read as the triples of their subjects. -/
theorem flatMap_nodeTriples_perm {groups : List (String × List Triple)} {nodes : List Json}
    (vocab : Vocabulary) (h : groups.mapM (fun g => nodeObject g.1 g.2) = some nodes)
    (hsubjects : ∀ g ∈ groups, ∀ t ∈ g.2, subjectKey t.subject = g.1) :
    (nodes.flatMap (nodeTriples vocab)).Perm
      (groups.flatMap fun g => g.2.flatMap fun t => (tripleBack vocab t).toList) := by
  have hnodes := forall₂_of_mapM h
  clear h
  induction hnodes with
  | nil => exact .refl _
  | @cons g node groups nodes hnode _ ih =>
    have hfirst := nodeTriples_nodeObject vocab hnode (hsubjects g List.mem_cons_self)
    rw [List.flatMap_cons, List.flatMap_cons]
    exact hfirst.append (ih fun g' hg' => hsubjects g' (List.mem_cons_of_mem g hg'))

/-- The node objects of a list of triples are read as what its triples are read back as. -/
theorem flatMap_nodeObjects_perm {triples : List Triple} {nodes : List Json} (vocab : Vocabulary)
    (h : nodeObjects triples = some nodes) :
    (nodes.flatMap (nodeTriples vocab)).Perm (triples.filterMap (tripleBack vocab)) := by
  rw [List.filterMap_eq_flatMap_toList]
  refine (flatMap_nodeTriples_perm vocab h fun g hg => ?_).trans (BTreeMap.flatMap_groupBy_perm _ _)
  exact BTreeMap.key_of_mem_groupBy (Std.ExtTreeMap.mem_toList_iff_getElem?_eq_some.mp hg)

/-- A push panics under the key of the id, and nowhere else. -/
theorem Growing.pushObject_eq_none_iff {subject : String} {obj : BTreeMap String Json}
    (h : Growing subject obj) {t : Triple} :
    pushObject obj t = none ↔ t.predicate.value = "@id" := by
  constructor
  · intro hnone
    by_contra hid
    cases hold : obj[t.predicate.value]? with
    | none =>
      rw [pushObject, hold] at hnone
      cases hnone
    | some value =>
      obtain ⟨items, rfl, -⟩ := h.arrays _ value hid hold
      rw [pushObject, hold] at hnone
      cases hnone
  · intro hid
    rw [pushObject, hid, h.id]
    rfl

/-- Objects can be pushed unless one of them has the key of the id. -/
theorem foldlM_pushObject_eq_none_iff {subject : String} {obj : BTreeMap String Json}
    (h : Growing subject obj) {triples : List Triple} :
    triples.foldlM pushObject obj = none ↔ ∃ t ∈ triples, t.predicate.value = "@id" := by
  induction triples generalizing obj with
  | nil => simp
  | cons t triples ih =>
    rw [List.foldlM_cons]
    cases hpush : pushObject obj t with
    | none => simp [h.pushObject_eq_none_iff.mp hpush]
    | some next =>
      obtain ⟨hid, hnext, -⟩ := h.push .empty hpush (.blank "")
      simp [hid, ih hnext]

end

section

variable [SerdeJson] [RdfText]

/-- The document of an ontology. -/
def document (o : Ontology) : Option Json :=
  (nodeObjects (toRdf o)).map fun graph =>
    .obj [("@context", .obj (contextEntries o.projectionVocabulary)), ("@graph", .arr graph)]

/-- `write`: nothing where it panics. -/
def write (o : Ontology) : Option (List UInt8) := (document o).map Json.toVecPretty

/-- `parse`: the triples of a text. -/
def parseText [JsonReader] (bytes : List UInt8) : Except String (List Triple) :=
  (JsonReader.fromSlice bytes).map parse

/-- What is read of the document of an ontology: each of its triples as it is read back, in the
order of subjects and predicates. -/
theorem parse_document_perm {o : Ontology} {doc : Json} (h : document o = some doc) :
    (parse doc).Perm ((toRdf o).filterMap (tripleBack o.projectionVocabulary)) := by
  obtain ⟨nodes, hnodes, rfl⟩ := Option.map_eq_some_iff.mp h
  rw [parse, context_eq]
  exact flatMap_nodeObjects_perm _ hnodes

/-- A written document nests five times at most. -/
theorem plain_document {o : Ontology} {doc : Json} (h : document o = some doc) : Plain 5 doc := by
  obtain ⟨nodes, hnodes, rfl⟩ := Option.map_eq_some_iff.mp h
  have hcontext : Plain 4 (.obj (contextEntries o.projectionVocabulary)) := by
    have hentries : Plain 1 (.obj (contextEntries o.projectionVocabulary)) := by
      refine .obj fun e he => ?_
      obtain ⟨ns, -, rfl⟩ := List.mem_map.mp he
      exact Plain.str 0 ns.2.value
    exact hentries.mono (by omega)
  have hgraph : Plain 4 (.arr nodes) := by
    refine .arr fun node hnode => ?_
    obtain ⟨g, hg⟩ : ∃ g : String × List Triple, nodeObject g.1 g.2 = some node := by
      obtain ⟨i, hi, rfl⟩ := List.mem_iff_getElem.mp hnode
      exact ⟨_, (forall₂_of_mapM hnodes).get (by rwa [(forall₂_of_mapM hnodes).length_eq]) hi⟩
    exact plain_nodeObject hg
  refine .obj fun e he => ?_
  rcases List.mem_cons.mp he with rfl | he
  · exact hcontext
  · exact List.mem_singleton.mp he ▸ hgraph

/-- The text of an ontology is read as its triples are read back. -/
theorem parseText_write [JsonReader] {o : Ontology} {bytes : List UInt8}
    (h : write o = some bytes) :
    ∃ triples, parseText bytes = .ok triples ∧
      triples.Perm ((toRdf o).filterMap (tripleBack o.projectionVocabulary)) := by
  obtain ⟨doc, hdoc, rfl⟩ := Option.map_eq_some_iff.mp h
  refine ⟨parse doc, ?_, parse_document_perm hdoc⟩
  rw [parseText, JsonReader.fromSlice_pretty, (plain_document hdoc).reparse (by decide)]
  rfl

/-- The writer panics exactly on a triple under the key of the id. -/
theorem write_eq_none_iff (o : Ontology) :
    write o = none ↔ ∃ t ∈ toRdf o, t.predicate.value = "@id" := by
  have hperm : ((BTreeMap.groupBy (fun t => subjectKey t.subject) (toRdf o)).toList.flatMap
      fun g => g.2.flatMap fun t => [t]).Perm ((toRdf o).flatMap fun t => [t]) :=
    BTreeMap.flatMap_groupBy_perm _ _
  rw [write, Option.map_eq_none_iff, document, Option.map_eq_none_iff, nodeObjects,
    mapM_eq_none_iff]
  simp only [nodeObject, Option.map_eq_none_iff, foldlM_pushObject_eq_none_iff (Growing.start _)]
  constructor
  · intro h
    obtain ⟨g, hg, t, ht, hid⟩ := h
    have hmem := hperm.mem_iff.mp (List.mem_flatMap.mpr ⟨g, hg, by simpa using ht⟩)
    exact ⟨t, by simpa using hmem, hid⟩
  · intro h
    obtain ⟨t, ht, hid⟩ := h
    obtain ⟨g, hg, htg⟩ := List.mem_flatMap.mp (hperm.mem_iff.mpr (by simpa using ht))
    exact ⟨g, hg, t, by simpa using htg, hid⟩

/-- Where the bases of the vocabulary are full IRIs, an ontology that is written is read back as the
same triples exactly if each of them is read back as itself. -/
theorem reads_back_iff [JsonReader] {o : Ontology} {bytes : List UInt8} (h : write o = some bytes)
    (habs : ∀ base ∈ o.projectionVocabulary.namespaces.vals, Absolute base.value) :
    (∃ triples, parseText bytes = .ok triples ∧ triples.Perm (toRdf o)) ↔
      ∀ t ∈ toRdf o, tripleBack o.projectionVocabulary t = some t := by
  obtain ⟨triples, hparse, hperm⟩ := parseText_write h
  constructor
  · rintro ⟨others, hothers, hsame⟩ t ht
    obtain rfl := Except.ok.inj (hparse.symm.trans hothers)
    have hmem := (hperm.symm.trans hsame).mem_iff.mpr ht
    obtain ⟨original, -, hback⟩ := List.mem_filterMap.mp hmem
    exact tripleBack_of_tripleBack habs hback
  · intro hall
    refine ⟨triples, hparse, hperm.trans ?_⟩
    rw [List.filterMap_congr hall, List.filterMap_some]

end

/-- A node with an IRI, two labels and a property. -/
private def acme : Ontology :=
  Ontology.empty.upsertNode ⟨.filled 1, some ⟨"https://example.org/Acme"⟩,
    ["Organization", "Company"], (∅ : BTreeMap String PropertyValue).insert "name" (.string "Acme")⟩

/-- A repeated predicate and another one of its subject are read back. -/
theorem reads_back_acme :
    let _ := SerdeJson.plain
    let _ := RdfText.plain
    let _ := JsonReader.plain
    ∃ bytes triples, write acme = some bytes ∧ parseText bytes = .ok triples ∧
      triples.Perm (toRdf acme) := by
  intro _ _ _
  have hids : ¬∃ t ∈ toRdf acme, t.predicate.value = "@id" := by decide +kernel
  have habs : ∀ base ∈ acme.projectionVocabulary.namespaces.vals, Absolute base.value := by
    unfold Absolute
    decide +kernel
  have hback : ∀ t ∈ toRdf acme, tripleBack acme.projectionVocabulary t = some t := by
    decide +kernel
  cases hwrite : write acme with
  | none => exact absurd ((write_eq_none_iff acme).mp hwrite) hids
  | some bytes =>
    obtain ⟨triples, hparse, hperm⟩ := (reads_back_iff hwrite habs).mpr hback
    exact ⟨bytes, triples, rfl, hparse, hperm⟩

end JsonLd

end AtomrOntology
