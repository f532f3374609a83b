import AtomrOntology.Rdf.JsonLd
import AtomrOntology.Rdf.ReadsBack

/-!
# Full IRIs and prefixed names in JSON-LD

A full IRI may be replaced by a prefixed name in the key of a predicate, in a type, in a node
reference and in the id of a node object. All places but the last are expanded, so a document
keeps its triples unless a node object that gives any has a prefixed name for an id.
-/

namespace AtomrOntology.JsonLd

variable {vocab : Vocabulary} {full curie : String}

/-- A full http(s) IRI. -/
def IsHttp (s : String) : Prop := startsWith s "http://" ∨ startsWith s "https://"

instance : DecidablePred IsHttp := fun _ => inferInstanceAs (Decidable (_ ∨ _))

/-- A prefixed name that stands for a full IRI. -/
structure Abbreviates (vocab : Vocabulary) (full curie : String) : Prop where
  http : IsHttp full
  bound : ∃ (pre loc : String) (base : Iri), curie = pre ++ ":" ++ loc ∧ ':' ∉ pre.toList ∧
    pre ∉ ["http", "https", "urn", "_"] ∧ vocab.namespaces[pre]? = some base ∧
    full = base.value ++ loc

/-- A text with a colon begins with what its prefix is. -/
theorem startsWith_colon {pre loc scheme rest : String} (hpre : ':' ∉ pre.toList)
    (hscheme : ':' ∉ scheme.toList) :
    startsWith (pre ++ ":" ++ loc) (scheme ++ ":" ++ rest) = true → pre = scheme := by
  intro h
  obtain ⟨tail, htail⟩ := List.isPrefixOf_iff_prefix.mp h
  have hchars :
    scheme.toList ++ ':' :: (rest.toList ++ tail) = pre.toList ++ ':' :: loc.toList := by
    simpa using htail
  have hsplit := congrArg (splitOnce ':') hchars
  rw [splitOnce_append _ hscheme, splitOnce_append _ hpre] at hsplit
  exact String.toList_inj.mp (congrArg Prod.fst (Option.some.inj hsplit)).symm

namespace Abbreviates

variable (h : Abbreviates vocab full curie)
include h

/-- Neither a scheme nor the mark of blank nodes. -/
theorem not_startsWith (scheme rest : String) (hscheme : ':' ∉ scheme.toList)
    (hmem : scheme ∈ ["http", "https", "urn", "_"]) :
    startsWith curie (scheme ++ ":" ++ rest) = false := by
  obtain ⟨pre, loc, base, rfl, hpre, hnot, -, -⟩ := h.bound
  by_contra hstarts
  rw [Bool.not_eq_false] at hstarts
  exact hnot (startsWith_colon hpre hscheme hstarts ▸ hmem)

/-- A shortened IRI is none. -/
theorem not_http : ¬IsHttp curie := by
  have h1 := h.not_startsWith "http" "//" (by decide) (by decide)
  have h2 := h.not_startsWith "https" "//" (by decide) (by decide)
  rintro (hstarts | hstarts)
  · exact Bool.false_ne_true (h1.symm.trans hstarts)
  · exact Bool.false_ne_true (h2.symm.trans hstarts)

/-- It is another text. -/
theorem ne : full ≠ curie := fun heq => h.not_http (heq ▸ h.http)

theorem ne_of_noColon {s : String} (hs : ':' ∉ s.toList) : curie ≠ s := by
  obtain ⟨pre, loc, base, rfl, -⟩ := h.bound
  rintro rfl
  simp at hs

end Abbreviates

/-- A full IRI expands to itself. -/
theorem expandIri_of_http {s : String} (h : IsHttp s) (vocab : Vocabulary) :
    expandIri s vocab = ⟨s⟩ := by
  rw [expandIri, if_pos]
  rcases h with h | h <;> simp [h]

/-- A prefixed name is expanded to the IRI that it stands for. -/
theorem Abbreviates.expandIri_eq (h : Abbreviates vocab full curie) :
    expandIri curie vocab = expandIri full vocab := by
  rw [expandIri_of_http h.http]
  have h1 := h.not_startsWith "http" "//" (by decide) (by decide)
  have h2 := h.not_startsWith "https" "//" (by decide) (by decide)
  have h3 := h.not_startsWith "urn" "" (by decide) (by decide)
  obtain ⟨pre, loc, base, rfl, hpre, -, hbound, rfl⟩ := h.bound
  have hnot : ¬(startsWith (pre ++ ":" ++ loc) "http://" ||
      startsWith (pre ++ ":" ++ loc) "https://" || startsWith (pre ++ ":" ++ loc) "urn:") =
        true := by
    intro hor
    rw [Bool.or_eq_true, Bool.or_eq_true] at hor
    rcases hor with (hor | hor) | hor
    · exact Bool.false_ne_true (h1.symm.trans hor)
    · exact Bool.false_ne_true (h2.symm.trans hor)
    · exact Bool.false_ne_true (h3.symm.trans hor)
  have hexpand : vocab.expandCurie (pre ++ ":" ++ loc) = some ⟨base.value ++ loc⟩ := by
    have hsplit : splitOnce ':' (pre ++ ":" ++ loc).toList = some (pre.toList, loc.toList) := by
      have htext : (pre ++ ":" ++ loc).toList = pre.toList ++ ':' :: loc.toList := by simp
      rw [htext, splitOnce_append _ hpre]
    rw [Vocabulary.expandCurie, hsplit]
    simp [hbound]
  rw [expandIri, if_neg hnot, hexpand]

/-- A full IRI is no blank node. -/
theorem stripPrefix_of_http {s : String} (h : IsHttp s) :
    stripPrefix ['_', ':'] s.toList = none := by
  rw [stripPrefix, if_neg]
  rintro ⟨tail, htail⟩
  rcases h with h | h <;>
  · obtain ⟨tail', htail'⟩ := List.isPrefixOf_iff_prefix.mp h
    rw [← htail] at htail'
    cases htail'

theorem Abbreviates.stripPrefix_eq (h : Abbreviates vocab full curie) :
    stripPrefix ['_', ':'] curie.toList = none := by
  have hnot := h.not_startsWith "_" "" (by decide) (by decide)
  rw [stripPrefix, if_neg]
  intro hpre
  exact Bool.false_ne_true (hnot.symm.trans (List.isPrefixOf_iff_prefix.mpr hpre))

/-- A text that is an IRI may be replaced. -/
inductive ShortensIri (vocab : Vocabulary) : Json → Json → Prop
  | same (v : Json) : ShortensIri vocab v v
  | short {full curie : String} : Abbreviates vocab full curie →
      ShortensIri vocab (.str full) (.str curie)

/-- The id and the type of a value object may be replaced. -/
inductive ShortensValue (vocab : Vocabulary) : Json → Json → Prop
  | same (v : Json) : ShortensValue vocab v v
  | object {entries entries' : List (String × Json)} :
      List.Forall₂ (fun e e' => e.1 = e'.1 ∧ (e.2 = e'.2 ∨
        (e.1 = "@id" ∨ e.1 = "@type") ∧ ShortensIri vocab e.2 e'.2)) entries entries' →
      ShortensValue vocab (.obj entries) (.obj entries')

/-- An entry of a node object: its id, its types or a predicate. -/
inductive ShortensEntry (vocab : Vocabulary) : String × Json → String × Json → Prop
  | id {v v' : Json} : ShortensIri vocab v v' → ShortensEntry vocab ("@id", v) ("@id", v')
  | type {v v' : Json} : List.Forall₂ (ShortensIri vocab) (flatten v) (flatten v') →
      ShortensEntry vocab ("@type", v) ("@type", v')
  | predicate {key key' : String} {v v' : Json} : key ≠ "@id" → key ≠ "@type" →
      key = key' ∨ Abbreviates vocab key key' →
      List.Forall₂ (ShortensValue vocab) (flatten v) (flatten v') →
      ShortensEntry vocab (key, v) (key', v')

/-- A node object. Objects have pairwise different keys, and new keys change their order. -/
inductive ShortensNode (vocab : Vocabulary) : Json → Json → Prop
  | same (v : Json) : ShortensNode vocab v v
  | object {entries replaced entries' : List (String × Json)} :
      (entries.map Prod.fst).Nodup → (entries'.map Prod.fst).Nodup →
      List.Forall₂ (ShortensEntry vocab) entries replaced → replaced.Perm entries' →
      ShortensNode vocab (.obj entries) (.obj entries')

/-- Documents that differ in full IRIs, which are prefixed names in the second one. -/
structure Shortens (doc doc' : Json) : Prop where
  sameContext : doc.get "@context" = doc'.get "@context"
  nodes : List.Forall₂ (ShortensNode (context doc)) (graph doc) (graph doc')

theorem filterMap_eq_of_forall₂ {α β γ : Type} {R : α → β → Prop} {f : α → Option γ}
    {g : β → Option γ} {xs : List α} {ys : List β} (h : List.Forall₂ R xs ys)
    (heq : ∀ x y, R x y → f x = g y) : xs.filterMap f = ys.filterMap g := by
  induction h with
  | nil => rfl
  | cons hxy _ ih => rw [List.filterMap_cons, List.filterMap_cons, heq _ _ hxy, ih]

/-- Of a value object, what is under a key stays, or is replaced as an IRI. -/
theorem lookup_shortens {entries entries' : List (String × Json)}
    (h : List.Forall₂ (fun e e' => e.1 = e'.1 ∧ (e.2 = e'.2 ∨
      (e.1 = "@id" ∨ e.1 = "@type") ∧ ShortensIri vocab e.2 e'.2)) entries entries')
    (key : String) : entries.lookup key = entries'.lookup key ∨
      (key = "@id" ∨ key = "@type") ∧ ∃ full curie, Abbreviates vocab full curie ∧
        entries.lookup key = some (.str full) ∧ entries'.lookup key = some (.str curie) := by
  induction h with
  | nil => exact Or.inl rfl
  | @cons e e' entries entries' hentry _ ih =>
    obtain ⟨k, v⟩ := e
    obtain ⟨k', v'⟩ := e'
    obtain ⟨rfl, hvalue⟩ := hentry
    by_cases hkey : key = k
    · subst hkey
      simp only [List.lookup_cons_self]
      obtain rfl | ⟨hpos, hiri⟩ := hvalue
      · exact Or.inl rfl
      · cases hiri with
        | same => exact Or.inl rfl
        | short habbr => exact Or.inr ⟨hpos, _, _, habbr, rfl, rfl⟩
    · simpa only [List.lookup_cons, beq_false_of_ne hkey] using ih

section

variable [SerdeJson]

/-- A shortened value is the same object. -/
theorem ShortensValue.valueToObject_eq {v v' : Json} (h : ShortensValue vocab v v') :
    valueToObject v vocab = valueToObject v' vocab := by
  cases h with
  | same => rfl
  | @object entries entries' hentries =>
    have hsame : ∀ key, key ≠ "@id" → key ≠ "@type" → entries.lookup key = entries'.lookup key :=
      fun key hid htype => (lookup_shortens hentries key).resolve_right fun h =>
        h.1.elim hid htype
    have hvalue := hsame "@value" (by decide) (by decide)
    have hlanguage := hsame "@language" (by decide) (by decide)
    simp only [valueToObject, Json.asObject, Option.bind_eq_bind, Option.bind_some, hvalue,
      hlanguage]
    obtain hid | ⟨-, full, curie, habbr, hfull, hcurie⟩ := lookup_shortens hentries "@id"
    · obtain htype | ⟨-, full, curie, habbr, hfull, hcurie⟩ := lookup_shortens hentries "@type"
      · rw [hid, htype]
      · simp only [hid, hfull, hcurie, Option.bind_some, Json.asStr_str,
          habbr.expandIri_eq]
    · simp only [hfull, hcurie, Option.bind_some, Json.asStr_str, stripPrefix_of_http habbr.http,
        habbr.stripPrefix_eq, habbr.expandIri_eq]

/-- An entry gives the same triples for the same subject. -/
theorem ShortensEntry.entryTriples_eq {e e' : String × Json} (h : ShortensEntry vocab e e')
    (subject : Subject) : entryTriples vocab subject e = entryTriples vocab subject e' := by
  cases h with
  | id => rfl
  | type hitems =>
    refine filterMap_eq_of_forall₂ hitems fun v v' hiri => ?_
    cases hiri with
    | same => rfl
    | short habbr => simp only [Json.asStr_str, Option.map_some, habbr.expandIri_eq]
  | @predicate key key' v v' hid htype hkey hitems =>
    have hiri : expandIri key' vocab = expandIri key vocab := by
      rcases hkey with rfl | habbr
      · rfl
      · exact habbr.expandIri_eq
    have hid' : key' ≠ "@id" := by
      rcases hkey with rfl | habbr
      · exact hid
      · exact habbr.ne_of_noColon (by decide)
    have htype' : key' ≠ "@type" := by
      rcases hkey with rfl | habbr
      · exact htype
      · exact habbr.ne_of_noColon (by decide)
    simp only [entryTriples, if_neg hid, if_neg htype, if_neg hid', if_neg htype', hiri]
    exact filterMap_eq_of_forall₂ hitems fun v v' hvalue => by rw [hvalue.valueToObject_eq]

/-- A value that is read as a node reference or as a literal. -/
def IsTerm (value : Json) : Prop := ∃ entries, value = .obj entries ∧
  (((entries.lookup "@id").bind Json.asStr).isSome ∨ (entries.lookup "@value").isSome)

/-- An entry of a node object with a type or a value that is read. -/
def EntrySpeaks (e : String × Json) : Prop := e.1 ≠ "@id" ∧ ∃ v ∈ flatten e.2,
  e.1 = "@type" ∧ v.asStr.isSome ∨ e.1 ≠ "@type" ∧ IsTerm v

/-- A node object with an entry that is read. -/
def Speaks (node : Json) : Prop := ∃ entries, node = .obj entries ∧ ∃ e ∈ entries, EntrySpeaks e

/-- The id of a node object. -/
def nodeId (node : Json) : Option String :=
  node.asObject.bind fun entries => (entries.lookup "@id").bind Json.asStr

/-- The triples that the entries of a node object give for a subject. -/
def triplesAs (vocab : Vocabulary) (subject : Subject) (node : Json) : List Triple :=
  (node.asObject.getD []).flatMap (entryTriples vocab subject)

/-- The triples of a node are about its subject. -/
theorem nodeTriples_eq (vocab : Vocabulary) (node : Json) : nodeTriples vocab node =
    ((nodeId node).map fun id => triplesAs vocab (subjectFromId id) node).getD [] := by
  unfold nodeTriples nodeId triplesAs
  cases node.asObject with
  | none => rfl
  | some entries =>
    simp only [Option.bind_some, Option.getD_some]
    cases (entries.lookup "@id").bind Json.asStr <;> rfl

/-- Objects are made of terms only. -/
theorem isSome_valueToObject (vocab : Vocabulary) (v : Json) :
    (valueToObject v vocab).isSome ↔ IsTerm v := by
  cases v with
  | obj entries =>
    simp only [valueToObject, Json.asObject, Option.bind_eq_bind, Option.bind_some]
    cases hid : (entries.lookup "@id").bind Json.asStr with
    | some id =>
      refine iff_of_true ?_ ⟨entries, rfl, Or.inl (by rw [hid]; rfl)⟩
      dsimp only
      split
      · rfl
      · rfl
    | none =>
      cases hvalue : entries.lookup "@value" with
      | some value => exact iff_of_true rfl ⟨entries, rfl, Or.inr (by rw [hvalue]; rfl)⟩
      | none =>
        refine iff_of_false (by simp) ?_
        rintro ⟨_, h, hread⟩
        cases h
        rw [hid, hvalue] at hread
        simp at hread
  | _ =>
    refine iff_of_false (by simp [valueToObject, Json.asObject]) ?_
    rintro ⟨_, h, -⟩
    cases h

/-- Triples of a node have its subject. -/
theorem subject_of_mem_triplesAs {subject : Subject} {node : Json} {t : Triple}
    (h : t ∈ triplesAs vocab subject node) : t.subject = subject := by
  obtain ⟨e, -, ht⟩ := List.mem_flatMap.mp h
  unfold entryTriples at ht
  dsimp only at ht
  split_ifs at ht
  · cases ht
  · obtain ⟨v, -, hv⟩ := List.mem_filterMap.mp ht
    obtain ⟨s, -, rfl⟩ := Option.map_eq_some_iff.mp hv
    rfl
  · obtain ⟨v, -, hv⟩ := List.mem_filterMap.mp ht
    obtain ⟨obj, -, rfl⟩ := Option.map_eq_some_iff.mp hv
    rfl

/-- An entry without terms gives no triples. -/
theorem entryTriples_eq_nil_iff (vocab : Vocabulary) (subject : Subject) (e : String × Json) :
    entryTriples vocab subject e = [] ↔ ¬EntrySpeaks e := by
  obtain ⟨key, values⟩ := e
  unfold entryTriples EntrySpeaks
  dsimp only
  split_ifs with hid htype
  · simp [hid]
  · simp [htype]
  · simp [hid, htype, ← isSome_valueToObject vocab]

/-- Whether a node object gives triples does not depend on the subject. -/
theorem triplesAs_eq_nil_iff (vocab : Vocabulary) (subject : Subject) (node : Json) :
    triplesAs vocab subject node = [] ↔ ¬Speaks node := by
  unfold triplesAs Speaks
  rw [List.flatMap_eq_nil_iff]
  cases node with
  | obj entries => simp [Json.asObject, entryTriples_eq_nil_iff]
  | _ => simp [Json.asObject]

/-- Shortened entries give the same triples. -/
theorem flatMap_entryTriples_eq {entries replaced : List (String × Json)}
    (h : List.Forall₂ (ShortensEntry vocab) entries replaced) (subject : Subject) :
    entries.flatMap (entryTriples vocab subject) =
      replaced.flatMap (entryTriples vocab subject) := by
  induction h with
  | nil => rfl
  | cons he _ ih => rw [List.flatMap_cons, List.flatMap_cons, he.entryTriples_eq, ih]

/-- The entries give the same triples for the same subject, in another order. -/
theorem ShortensNode.triplesAs_perm {node node' : Json} (h : ShortensNode vocab node node')
    (subject : Subject) :
    (triplesAs vocab subject node).Perm (triplesAs vocab subject node') := by
  cases h with
  | same => exact .refl _
  | object _ _ hentries hperm =>
    exact (List.Perm.of_eq (flatMap_entryTriples_eq hentries subject)).trans
      (hperm.flatMap_right (entryTriples vocab subject))

end

/-- Under distinct keys the entries are found. -/
theorem lookup_eq_some_iff {entries : List (String × Json)} (h : (entries.map Prod.fst).Nodup)
    {key : String} {v : Json} : entries.lookup key = some v ↔ (key, v) ∈ entries := by
  induction entries with
  | nil => simp
  | cons e entries ih =>
    obtain ⟨k, w⟩ := e
    rw [List.map_cons, List.nodup_cons] at h
    by_cases hkey : key = k
    · subst hkey
      have hfresh : (key, v) ∉ entries := fun hmem =>
        h.1 (List.mem_map.mpr ⟨_, hmem, rfl⟩)
      simp [hfresh, eq_comm]
    · simp [List.lookup_cons, beq_false_of_ne hkey, ih h.2, hkey]

/-- The id of a node object stays, or is replaced. -/
theorem ShortensNode.nodeId_cases {node node' : Json} (h : ShortensNode vocab node node') :
    nodeId node = nodeId node' ∨ ∃ full curie, Abbreviates vocab full curie ∧
      nodeId node = some full ∧ nodeId node' = some curie := by
  cases h with
  | same => exact Or.inl rfl
  | @object entries replaced entries' hnodup hnodup' hentries hperm =>
    have hid : replaced.lookup "@id" = entries'.lookup "@id" := by
      have hreplaced : (replaced.map Prod.fst).Nodup := (hperm.map Prod.fst).nodup_iff.mpr hnodup'
      ext v
      rw [lookup_eq_some_iff hreplaced, lookup_eq_some_iff hnodup', hperm.mem_iff]
    simp only [nodeId, Json.asObject, Option.bind_some, ← hid]
    clear hid hnodup hperm
    induction hentries with
    | nil => exact Or.inl rfl
    | @cons e e' entries replaced hentry _ ih =>
      cases hentry with
      | id hiri =>
        cases hiri with
        | same => exact Or.inl rfl
        | short habbr => exact Or.inr ⟨_, _, habbr, rfl, rfl⟩
      | type => exact ih
      | @predicate key key' v v' hkeyId hkeyType hkey =>
        have hkeyId' : key' ≠ "@id" := by
          rcases hkey with rfl | habbr
          · exact hkeyId
          · exact habbr.ne_of_noColon (by decide)
        simpa [List.lookup_cons, beq_false_of_ne hkeyId.symm, beq_false_of_ne hkeyId'.symm] using ih

/-- A node object keeps its id, or gives no triples. -/
def SubjectKept (node node' : Json) : Prop := nodeId node = nodeId node' ∨ ¬Speaks node

/-- Where the sum is the same although no summand grows, each is the same. -/
theorem forall₂_of_sum_eq {α β : Type} {f : α → Nat} {g : β → Nat} {P : α → β → Prop}
    {xs : List α} {ys : List β}
    (h : List.Forall₂ (fun x y => g y ≤ f x ∧ (g y = f x → P x y)) xs ys)
    (hsum : (xs.map f).sum = (ys.map g).sum) : List.Forall₂ P xs ys := by
  have hle : ∀ {xs ys}, List.Forall₂ (fun x y => g y ≤ f x ∧ (g y = f x → P x y)) xs ys →
      (ys.map g).sum ≤ (xs.map f).sum := by
    intro xs ys h
    induction h with
    | nil => exact Nat.le_refl _
    | cons hxy _ ih => simpa using Nat.add_le_add hxy.1 ih
  induction h with
  | nil => exact .nil
  | cons hxy hrest ih =>
    have hrestLe := hle hrest
    simp only [List.map_cons, List.sum_cons] at hsum
    exact .cons (hxy.2 (by have := hxy.1; omega)) (ih (by have := hxy.1; omega))

/-- How many triples have a full http(s) IRI as subject. -/
private def httpSubjects (triples : List Triple) : Nat :=
  triples.countP fun t => match t.subject with
    | .iri i => decide (IsHttp i.value)
    | .blank _ => false

section

variable [SerdeJson]

private theorem httpSubjects_triplesAs_of_http {id : String} (h : IsHttp id) (node : Json) :
    httpSubjects (triplesAs vocab (subjectFromId id) node) =
      (triplesAs vocab (subjectFromId id) node).length := by
  refine List.countP_eq_length.mpr fun t ht => ?_
  rw [subject_of_mem_triplesAs ht, subjectFromId, stripPrefix_of_http h]
  exact decide_eq_true h

private theorem httpSubjects_triplesAs_of_curie (h : Abbreviates vocab full curie) (node : Json) :
    httpSubjects (triplesAs vocab (subjectFromId curie) node) = 0 := by
  refine List.countP_eq_zero.mpr fun t ht => ?_
  rw [subject_of_mem_triplesAs ht, subjectFromId, h.stripPrefix_eq]
  simp [h.not_http]

/-- A node object that keeps its id or gives no triples gives the same triples. -/
theorem SubjectKept.perm {node node' : Json} (hkept : SubjectKept node node')
    (h : ShortensNode vocab node node') :
    (nodeTriples vocab node).Perm (nodeTriples vocab node') := by
  rw [nodeTriples_eq, nodeTriples_eq]
  obtain hid | hsilent := hkept
  · rw [hid]
    cases nodeId node' with
    | none => exact .refl _
    | some id => exact h.triplesAs_perm _
  · have hnil : ∀ subject, triplesAs vocab subject node = [] :=
      fun subject => (triplesAs_eq_nil_iff vocab subject node).mpr hsilent
    have hnil' : ∀ subject, triplesAs vocab subject node' = [] :=
      fun subject => (hnil subject ▸ h.triplesAs_perm subject).nil_eq.symm
    refine List.Perm.of_eq ?_
    cases nodeId node <;> cases nodeId node' <;> simp [hnil, hnil']

/-- A node object with a replaced id loses its triples with a full IRI as subject. -/
theorem ShortensNode.httpSubjects_le {node node' : Json} (h : ShortensNode vocab node node') :
    httpSubjects (nodeTriples vocab node') ≤ httpSubjects (nodeTriples vocab node) ∧
      (httpSubjects (nodeTriples vocab node') = httpSubjects (nodeTriples vocab node) →
        SubjectKept node node') := by
  obtain hid | ⟨full, curie, habbr, hfull, hcurie⟩ := h.nodeId_cases
  · have hperm := SubjectKept.perm (Or.inl hid) h
    exact ⟨(hperm.countP_eq _).ge, fun _ => Or.inl hid⟩
  · have hnode : httpSubjects (nodeTriples vocab node) =
        (triplesAs vocab (subjectFromId full) node).length := by
      rw [nodeTriples_eq, hfull]
      exact httpSubjects_triplesAs_of_http habbr.http node
    have hnode' : httpSubjects (nodeTriples vocab node') = 0 := by
      rw [nodeTriples_eq, hcurie]
      exact httpSubjects_triplesAs_of_curie habbr node'
    rw [hnode, hnode']
    refine ⟨Nat.zero_le _, fun hlength => Or.inr ?_⟩
    exact (triplesAs_eq_nil_iff vocab _ node).mp (List.eq_nil_of_length_eq_zero hlength.symm)

/-- Replacing full IRIs by prefixed names leaves the triples of a document as they are, exactly
if each node object whose id is replaced gives no triples. -/
theorem parse_perm_iff_subjects_kept {doc doc' : Json} (h : Shortens doc doc') :
    (parse doc).Perm (parse doc') ↔ List.Forall₂ SubjectKept (graph doc) (graph doc') := by
  have hcontext : context doc' = context doc := by rw [context, context, h.sameContext]
  rw [parse, parse, hcontext]
  constructor
  · intro hperm
    refine forall₂_of_sum_eq (f := fun node => httpSubjects (nodeTriples (context doc) node))
      (g := fun node => httpSubjects (nodeTriples (context doc) node))
      (h.nodes.imp fun _ _ hnode => hnode.httpSubjects_le) ?_
    have hcount := hperm.countP_eq fun t : Triple => match t.subject with
      | .iri i => decide (IsHttp i.value)
      | .blank _ => false
    rw [List.countP_flatMap, List.countP_flatMap] at hcount
    exact hcount
  · intro hkept
    have hnodes := h.nodes
    generalize graph doc = nodes at hkept hnodes
    generalize graph doc' = nodes' at hkept hnodes
    induction hkept with
    | nil => exact .refl _
    | cons hnode _ ih =>
      obtain ⟨hshort, hrest⟩ := List.forall₂_cons.mp hnodes
      rw [List.flatMap_cons, List.flatMap_cons]
      exact (hnode.perm hshort).append (ih hrest)

end

/-- A document with one node object with one literal. -/
private def oneNode (id key : String) : Json :=
  .obj [("@context", .obj [("ex", .str "http://example.org/")]),
    ("@graph", .arr [.obj [("@id", .str id), (key, .obj [("@value", .str "Acme")])]])]

private theorem abbreviates_ex (id key loc : String) :
    Abbreviates (context (oneNode id key)) ("http://example.org/" ++ loc) ("ex:" ++ loc) := by
  refine ⟨Or.inl ?_, "ex", loc, ⟨"http://example.org/"⟩, rfl, by decide, by decide, ?_, rfl⟩
  · rw [startsWith, List.isPrefixOf_iff_prefix, String.toList_append]
    exact ⟨"example.org/".toList ++ loc.toList, rfl⟩
  · simp [context, oneNode, Json.get, Json.asObject, Vocabulary.bind]

private theorem shortens_oneNode {id id' key key' : String}
    (hid : ShortensIri (context (oneNode id key)) (.str id) (.str id'))
    (hkey : key = key' ∨ Abbreviates (context (oneNode id key)) key key')
    (hne : key ≠ "@id" ∧ key ≠ "@type") (hne' : key' ≠ "@id") :
    Shortens (oneNode id key) (oneNode id' key') := by
  refine ⟨rfl, .cons (.object ?_ ?_ (.cons (.id hid) (.cons (.predicate hne.1 hne.2 hkey
    (.cons (.same _) .nil)) .nil)) (.refl _)) .nil⟩
  · simpa using hne.1.symm
  · simpa using hne'.symm

/-- A prefixed name for the predicate of a literal gives the same triple. -/
theorem parse_perm_name :
    (@parse .plain (oneNode "http://example.org/Acme" "http://example.org/name")).Perm
      (@parse .plain (oneNode "http://example.org/Acme" "ex:name")) :=
  (@parse_perm_iff_subjects_kept .plain _ _ (shortens_oneNode (.same _)
    (Or.inr (abbreviates_ex _ _ "name")) (by decide) (by decide))).mpr
      (.cons (Or.inl rfl) .nil)

/-- A prefixed name for the id of a node object gives another subject. -/
theorem acme_has_two_subjects :
    Shortens (oneNode "http://example.org/Acme" "http://example.org/name")
        (oneNode "ex:Acme" "http://example.org/name") ∧
      ¬(@parse .plain (oneNode "http://example.org/Acme" "http://example.org/name")).Perm
        (@parse .plain (oneNode "ex:Acme" "http://example.org/name")) := by
  constructor
  · exact shortens_oneNode (.short (abbreviates_ex _ _ "Acme")) (Or.inl rfl) (by decide) (by decide)
  · decide +kernel

end AtomrOntology.JsonLd
