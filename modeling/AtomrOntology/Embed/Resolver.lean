import AtomrOntology.Embed.Index
import AtomrOntology.Graph.Ontology
import AtomrOntology.Logic.Runs
import AtomrOntology.Rdf.Triple

/-!
# The embedding resolver

Nodes are embedded in one batch and their records pushed one by one. Nothing is taken back when a
vector is refused, and nothing replaced when a node is embedded again.
-/

namespace AtomrOntology

/-- Why a text is not embedded. -/
inductive EmbeddingError where
  | transport (text : String)
  | other (text : String)
deriving DecidableEq, Repr

/-- The debug form. -/
def Id.debug {kind : IdKind} (id : Id kind) : String := kind.typeName ++ "(" ++ id.toHex ++ ")"

/-- The key of a node in the index. -/
def nodeKey (node : Node) : String :=
  match node.iri with
  | some iri => iri.value
  | none => node.id.debug

/-- The text a node is embedded as. -/
def nodeText (node : Node) : String :=
  match node.properties["name"]?, node.iri with
  | some (.string s), _ => s
  | _, some iri =>
    let tail := localName iri
    if ¬tail.isEmpty then tail else iri.value
  | _, none => node.id.debug

/-- What a backend makes of a batch of texts. -/
abbrev EmbedBatch := List String → Except EmbeddingError (List (List F32))

/-- The index of a new resolver has the dimension that the backend reports. -/
def EmbeddingResolver.new (dimensions : Nat) : VectorIndex := .withDimensions dimensions

namespace VectorIndex

/-- Push records until one is refused, counting them. -/
def pushRecords (idx : VectorIndex) (inserted : Nat) :
    List VectorRecord → Except EmbeddingError Nat × VectorIndex
  | [] => (.ok inserted, idx)
  | record :: records =>
    match idx.insert record with
    | .error e => (.error (.other e.text), idx)
    | .ok idx => idx.pushRecords (inserted + 1) records

/-- The keys and texts of the nodes. -/
def inputs (o : Ontology) : List (String × String) :=
  o.nodes.vals.map fun node => (nodeKey node, nodeText node)

/-- The records of the nodes, for so many vectors. -/
def nodeRecords (o : Ontology) (vectors : List (List F32)) : List VectorRecord :=
  ((inputs o).zip vectors).map fun ((key, text), vector) =>
    { iri := key, vector := vector, metadata := .obj [("text", .str text)] }

/-- Embed every node and insert its record. -/
def ingestOntology (embedBatch : EmbedBatch) (idx : VectorIndex) (o : Ontology) :
    Except EmbeddingError Nat × VectorIndex :=
  match embedBatch ((inputs o).map Prod.snd) with
  | .error e => (.error e, idx)
  | .ok vectors =>
    if vectors.length ≠ (inputs o).length then
      (.error (.other ("backend returned " ++ toString vectors.length ++ " vectors for " ++
        toString (inputs o).length ++ " inputs")), idx)
    else idx.pushRecords 0 (nodeRecords o vectors)

section

variable {S : Type} [LinearOrder S] [Similarity S]

/-- The keys whose records are closest to a text; nothing if the sort panics. -/
def propose [SliceSort] (embed : String → Except EmbeddingError (List F32)) (idx : VectorIndex)
    (surface : String) (topK : Nat) : Option (Except EmbeddingError (List (String × Score S))) :=
  match embed surface with
  | .error e => some (.error e)
  | .ok query => (idx.search query topK).map fun hits => .ok (hits.map fun (r, s) => (r.iri, s))

end

variable {idx : VectorIndex} {dim : Nat}

/-- Records are pushed up to the first one of another dimension, which is reported. -/
theorem pushRecords_eq (hdim : idx.dim = some dim) (inserted : Nat) (records : List VectorRecord) :
    (idx.pushRecords inserted records).2 =
        { idx with records := idx.records ++ records.takeWhile (·.vector.length = dim) } ∧
      ((∃ n, (idx.pushRecords inserted records).1 = .ok n) ↔
        ∀ r ∈ records, r.vector.length = dim) := by
  induction records generalizing idx inserted with
  | nil => simp [pushRecords]
  | cons r records ih =>
    by_cases hr : r.vector.length = dim
    · have hinsert : idx.insert r = .ok { idx with records := idx.records ++ [r] } := by
        simp [insert, hdim, hr]
      obtain ⟨hidx, hok⟩ := @ih { idx with records := idx.records ++ [r] } hdim (inserted + 1)
      simp only [pushRecords, hinsert]
      refine ⟨?_, ?_⟩
      · rw [hidx, List.takeWhile_cons_of_pos (by simpa using hr)]
        simp
      · rw [hok, List.forall_mem_cons, and_iff_right hr]
    · have hinsert : idx.insert r = .error (.dimensionMismatch dim r.vector.length) := by
        simp [insert, hdim, Ne.symm hr]
      simp only [pushRecords, hinsert]
      refine ⟨?_, ?_⟩
      · rw [List.takeWhile_cons_of_neg (by simpa using hr)]
        simp
      · simp [hr]

/-- What an index is for: the last record of each key. -/
abbrev Catalog := String → Option VectorRecord

/-- Write some records. -/
def Catalog.write (c : Catalog) (records : List VectorRecord) : Catalog :=
  records.foldl (fun c r => Function.update c r.iri (some r)) c

/-- An index holds the record of every key in the catalog, once, and nothing else. -/
def Holds (idx : VectorIndex) (c : Catalog) : Prop :=
  ∀ key, idx.records.filter (·.iri = key) = (c key).toList

theorem Catalog.write_of_not_mem {c : Catalog} {records : List VectorRecord} {key : String}
    (h : ∀ r ∈ records, r.iri ≠ key) : c.write records key = c key := by
  induction records generalizing c with
  | nil => rfl
  | cons r records ih =>
    rw [List.forall_mem_cons] at h
    rw [Catalog.write, List.foldl_cons, ← Catalog.write, ih h.2,
      Function.update_of_ne (Ne.symm h.1)]

/-- Distinct keys are all written. -/
theorem Catalog.write_of_mem {c : Catalog} {records : List VectorRecord} {r : VectorRecord}
    (hkeys : (records.map (·.iri)).Nodup) (h : r ∈ records) :
    c.write records r.iri = some r := by
  induction records generalizing c with
  | nil => cases h
  | cons s records ih =>
    obtain ⟨hfresh, hkeys⟩ := List.nodup_cons.mp hkeys
    rw [Catalog.write, List.foldl_cons, ← Catalog.write]
    rcases List.mem_cons.mp h with rfl | h
    · rw [write_of_not_mem fun s hs he => hfresh (List.mem_map.mpr ⟨s, hs, he⟩),
        Function.update_self]
    · exact ih hkeys h

/-- No two records have the same key. -/
theorem Holds.nodup {c : Catalog} (h : idx.Holds c) : (idx.records.map (·.iri)).Nodup := by
  refine List.nodup_iff_count_le_one.mpr fun key => ?_
  have hcount : (idx.records.filter (·.iri = key)).length ≤ 1 := by
    rw [h key]
    cases c key <;> simp
  rw [List.count, List.countP_map, List.countP_eq_length_filter]
  exact hcount

/-- New records of distinct keys keep an index in step with its catalog. -/
theorem Holds.append {c : Catalog} {records : List VectorRecord} (h : idx.Holds c)
    (hkeys : (records.map (·.iri)).Nodup) (hnew : ∀ r ∈ idx.records, r.iri ∉ records.map (·.iri)) :
    Holds { idx with records := idx.records ++ records } (c.write records) := by
  intro key
  rw [List.filter_append, h key]
  by_cases hmem : key ∈ records.map (·.iri)
  · obtain ⟨r, hr, rfl⟩ := List.mem_map.mp hmem
    -- the key was not in the index, and is that of one new record only
    have hold : c r.iri = none := by
      cases hc : c r.iri with
      | none => rfl
      | some s =>
        have hs : s ∈ idx.records.filter (·.iri = r.iri) := by simp [h r.iri, hc]
        obtain ⟨hs, hiri⟩ := List.mem_filter.mp hs
        exact absurd hmem (of_decide_eq_true hiri ▸ hnew s hs)
    have honly : records.filter (·.iri = r.iri) = [r] := by
      have hcount : (records.filter (·.iri = r.iri)).length = 1 := by
        have hone := List.count_eq_one_of_mem hkeys (List.mem_map_of_mem (f := (·.iri)) hr)
        rwa [List.count, List.countP_map, List.countP_eq_length_filter] at hone
      obtain ⟨s, hs⟩ := List.length_eq_one_iff.mp hcount
      have hr' : r ∈ records.filter (·.iri = r.iri) := List.mem_filter.mpr ⟨hr, by simp⟩
      rw [hs] at hr' ⊢
      rw [List.mem_singleton.mp hr']
    rw [hold, honly, Catalog.write_of_mem hkeys hr]
    rfl
  · have hnone : records.filter (·.iri = key) = [] := by
      refine List.filter_eq_nil_iff.mpr fun r hr hiri => hmem ?_
      exact List.mem_map.mpr ⟨r, hr, of_decide_eq_true hiri⟩
    rw [hnone, List.append_nil, Catalog.write_of_not_mem]
    exact fun r hr he => hmem (List.mem_map.mpr ⟨r, hr, he⟩)

/-- An ingest: what the backend answers, and the ontology. -/
structure Ingest where
  embedBatch : EmbedBatch
  ontology : Ontology

/-- The records of an ingest that succeeds. -/
def Ingest.records (call : Ingest) : List VectorRecord :=
  match call.embedBatch ((inputs call.ontology).map Prod.snd) with
  | .error _ => []
  | .ok vectors => nodeRecords call.ontology vectors

/-- An ingest into the index; the catalog is written if and when it succeeds. -/
def ingest (s : VectorIndex × Catalog) (call : Ingest) : VectorIndex × Catalog :=
  let (result, idx) := ingestOntology call.embedBatch s.1 call.ontology
  (idx, match result with
    | .ok _ => s.2.write call.records
    | .error _ => s.2)

/-- The keys of the nodes. -/
def keys (o : Ontology) : List String := o.nodes.vals.map nodeKey

/-- An ingest can be carried out as a whole: unless it is refused at the first vector, no vector is
refused, no two nodes have the same key, and none has the key of a record. -/
def Admits (idx : VectorIndex) (call : Ingest) : Prop :=
  ∀ vectors, call.embedBatch ((inputs call.ontology).map Prod.snd) = .ok vectors →
    vectors.length = (inputs call.ontology).length →
    (∃ v, vectors.head? = some v ∧ ¬idx.Accepts v) ∨
      (∀ v ∈ vectors, idx.Accepts v) ∧ (keys call.ontology).Nodup ∧
        ∀ r ∈ idx.records, r.iri ∉ keys call.ontology

/-- An ingest is all or nothing and keyed by node, and no key is proposed twice. -/
structure Exact (S : Type) [LinearOrder S] [Similarity S] (s : VectorIndex × Catalog)
    (call : Ingest) : Prop where
  unchanged : ∀ e, (ingestOntology call.embedBatch s.1 call.ontology).1 = .error e →
    (ingest s call).1 = s.1
  holds : (ingest s call).1.Holds (ingest s call).2
  distinct : ∀ (_ : SliceSort) embed surface topK (hits : List (String × Score S)),
    propose embed (ingest s call).1 surface topK = some (.ok hits) → (hits.map Prod.fst).Nodup

theorem map_nodeRecords {o : Ontology} {vectors : List (List F32)}
    (h : vectors.length = (inputs o).length) :
    (nodeRecords o vectors).map (·.vector) = vectors ∧
      (nodeRecords o vectors).map (·.iri) = keys o := by
  have hsnd : ((inputs o).zip vectors).map Prod.snd = vectors :=
    List.map_snd_zip (Nat.le_of_eq h)
  have hfst : ((inputs o).zip vectors).map Prod.fst = inputs o :=
    List.map_fst_zip (Nat.le_of_eq h.symm)
  constructor
  · conv_rhs => rw [← hsnd]
    rw [nodeRecords, List.map_map]
    rfl
  · have hkeys : keys o = (inputs o).map Prod.fst := by rw [inputs, List.map_map]; rfl
    rw [hkeys, ← hfst, nodeRecords, List.map_map, List.map_map]
    rfl

/-- All that an ingest can do: report an error of the backend, or push the records. -/
theorem ingestOntology_cases (s : VectorIndex × Catalog) (call : Ingest) :
    ((∀ vectors, call.embedBatch ((inputs call.ontology).map Prod.snd) = .ok vectors →
        vectors.length ≠ (inputs call.ontology).length) ∧
      ingest s call = s ∧
      ∃ e, (ingestOntology call.embedBatch s.1 call.ontology).1 = .error e) ∨
    ∃ vectors, call.embedBatch ((inputs call.ontology).map Prod.snd) = .ok vectors ∧
      vectors.length = (inputs call.ontology).length ∧
      call.records = nodeRecords call.ontology vectors ∧
      ingestOntology call.embedBatch s.1 call.ontology =
        s.1.pushRecords 0 (nodeRecords call.ontology vectors) := by
  cases hanswer : call.embedBatch ((inputs call.ontology).map Prod.snd) with
  | error e =>
    left
    have hfailed : ingestOntology call.embedBatch s.1 call.ontology = (.error e, s.1) := by
      rw [ingestOntology, hanswer]
    refine ⟨fun _ h => (nomatch h), ?_, e, congrArg Prod.fst hfailed⟩
    rw [ingest, hfailed]
  | ok vectors =>
    by_cases hlen : vectors.length = (inputs call.ontology).length
    · right
      refine ⟨vectors, rfl, hlen, ?_, ?_⟩
      · simp only [Ingest.records, hanswer]
      · rw [ingestOntology, hanswer]
        exact if_neg (not_not.mpr hlen)
    · left
      obtain ⟨e, hwrong⟩ :
          ∃ e, ingestOntology call.embedBatch s.1 call.ontology = (.error e, s.1) := by
        rw [ingestOntology, hanswer]
        exact ⟨_, if_pos hlen⟩
      refine ⟨fun w hw => ?_, ?_, e, congrArg Prod.fst hwrong⟩
      · obtain rfl := Except.ok.inj hw
        exact hlen
      · rw [ingest, hwrong]

/-- Proposals name distinct keys if the records have distinct ones. -/
theorem distinct_of_nodup {S : Type} [LinearOrder S] [Similarity S] [SliceSort]
    {embed : String → Except EmbeddingError (List F32)} {surface : String} {topK : Nat}
    {hits : List (String × Score S)} (hkeys : (idx.records.map (·.iri)).Nodup)
    (h : propose embed idx surface topK = some (.ok hits)) : (hits.map Prod.fst).Nodup := by
  unfold propose at h
  cases hquery : embed surface with
  | error e =>
    rw [hquery] at h
    cases h
  | ok query =>
    rw [hquery] at h
    obtain ⟨found, hfound, hhits⟩ := Option.map_eq_some_iff.mp h
    obtain rfl := Except.ok.inj hhits
    have hiri : (found.map fun (r, s) => (r.iri, s)).map Prod.fst = found.map (·.1.iri) := by
      rw [List.map_map]
      rfl
    rw [hiri]
    by_cases hnone : topK = 0 ∨ idx.records.isEmpty
    · rw [search, if_pos hnone] at hfound
      obtain rfl := Option.some.inj hfound
      exact List.nodup_nil
    by_cases haccepts : idx.Accepts query
    swap
    · rw [search, if_neg hnone, if_pos haccepts] at hfound
      obtain rfl := Option.some.inj hfound
      exact List.nodup_nil
    have hsome := hfound
    rw [search, if_neg hnone, if_neg (not_not.mpr haccepts)] at hsome
    obtain ⟨sorted, hsort, -⟩ := Option.bind_eq_some_iff.mp hsome
    rw [not_or] at hnone
    obtain ⟨all, -, hperm, hsearch⟩ := search_of_sorted hnone.1
      (fun he => hnone.2 (List.isEmpty_iff.mpr he)) haccepts hsort
    rw [hsearch] at hfound
    obtain rfl := Option.some.inj hfound
    -- what is found are some of the records, each at most once
    have hall : (all.map (·.1.iri)).Perm (idx.records.map (·.iri)) := by
      have hmap := hperm.map (·.1.iri)
      rwa [ranked, List.map_map] at hmap
    rw [List.map_take]
    exact (hall.nodup_iff.mpr hkeys).sublist (List.take_sublist _ _)

/-- What an ingest does to an index of some dimension once the backend has answered. -/
theorem ingest_eq {s : VectorIndex × Catalog} {call : Ingest} {records : List VectorRecord}
    (hdim : s.1.dim = some dim) (hrecords : call.records = records)
    (hpush : ingestOntology call.embedBatch s.1 call.ontology = s.1.pushRecords 0 records) :
    ((∀ r ∈ records, r.vector.length = dim) ∧
      ingest s call =
        ({ s.1 with records := s.1.records ++ records }, s.2.write records) ∧
      ∃ n, (ingestOntology call.embedBatch s.1 call.ontology).1 = .ok n) ∨
    (∃ r ∈ records, r.vector.length ≠ dim) ∧
      ingest s call =
        ({ s.1 with records := s.1.records ++ records.takeWhile (·.vector.length = dim) }, s.2) ∧
      ∃ e, (ingestOntology call.embedBatch s.1 call.ontology).1 = .error e := by
  obtain ⟨hidx, hok⟩ := pushRecords_eq hdim 0 records
  rw [← hpush] at hidx hok
  by_cases hall : ∀ r ∈ records, r.vector.length = dim
  · left
    obtain ⟨n, hn⟩ := hok.mpr hall
    refine ⟨hall, ?_, n, hn⟩
    rw [List.takeWhile_eq_self_iff.mpr fun r hr => decide_eq_true (hall r hr)] at hidx
    simp only [ingest, hidx, hn, hrecords]
  · right
    cases hresult : (ingestOntology call.embedBatch s.1 call.ontology).1 with
    | ok n => exact absurd (hok.mp ⟨n, hresult⟩) hall
    | error e =>
      push Not at hall
      refine ⟨hall, ?_, e, rfl⟩
      simp only [ingest, hidx, hresult]

/-- In step with the catalog, an ingest is as it should be exactly if it can be carried out as a
whole. -/
theorem exact_iff {S : Type} [LinearOrder S] [Similarity S] {s : VectorIndex × Catalog}
    {call : Ingest} (hdim : s.1.dim = some dim) (hs : s.1.Holds s.2) :
    Exact S s call ↔ s.1.Admits call := by
  have haccepts : ∀ v : List F32, s.1.Accepts v ↔ v.length = dim := by simp [Accepts, hdim]
  rcases ingestOntology_cases s call with ⟨hwrong, hsame, -⟩ | ⟨vectors, hanswer, hlen, hrec, hpush⟩
  · refine iff_of_true ⟨fun _ _ => by rw [hsame], by rwa [hsame], ?_⟩ ?_
    · intro _ embed surface topK hits h
      rw [hsame] at h
      exact distinct_of_nodup hs.nodup h
    · exact fun vectors hvectors hlen => absurd hlen (hwrong vectors hvectors)
  obtain ⟨hvectors, hkeys⟩ := map_nodeRecords hlen
  have hadmits : s.1.Admits call ↔ (∃ v, vectors.head? = some v ∧ ¬s.1.Accepts v) ∨
      (∀ v ∈ vectors, s.1.Accepts v) ∧ (keys call.ontology).Nodup ∧
        ∀ r ∈ s.1.records, r.iri ∉ keys call.ontology := by
    constructor
    · exact fun h => h vectors hanswer hlen
    · intro h other hother _
      obtain rfl := Except.ok.inj (hother.symm.trans hanswer)
      exact h
  rw [hadmits]
  generalize nodeRecords call.ontology vectors = records at hrec hpush hvectors hkeys
  rw [← hkeys, ← hvectors]
  simp only [haccepts, List.forall_mem_map, List.head?_map, Option.map_eq_some_iff]
  rcases ingest_eq hdim hrec hpush with ⟨hall, hnext, n, hn⟩ | ⟨hsome, hnext, e, he⟩
  · -- every vector has the right dimension: the records are appended as a whole
    have hfirst : ¬∃ v, (∃ r, records.head? = some r ∧ r.vector = v) ∧ v.length ≠ dim := by
      rintro ⟨_, ⟨r, hr, rfl⟩, hne⟩
      exact hne (hall r (List.mem_of_head? hr))
    constructor
    · intro h
      have hnodup := h.holds.nodup
      rw [hnext, List.map_append, List.nodup_append'] at hnodup
      obtain ⟨-, hnew, hdisjoint⟩ := hnodup
      exact Or.inr ⟨hall, hnew, fun r hr => hdisjoint (List.mem_map_of_mem hr)⟩
    · rintro (h | ⟨-, hnew, hfresh⟩)
      · exact absurd h hfirst
      have hholds : (ingest s call).1.Holds (ingest s call).2 := by
        rw [hnext]
        exact hs.append hnew hfresh
      refine ⟨fun e he => ?_, hholds, fun _ _ _ _ _ => distinct_of_nodup hholds.nodup⟩
      rw [hn] at he
      cases he
  · -- some vector is refused: nothing may have been pushed before it
    constructor
    · intro h
      have hsame := congrArg VectorIndex.records (h.unchanged e he)
      rw [hnext] at hsame
      have hnil : records.takeWhile (·.vector.length = dim) = [] :=
        List.append_right_eq_self.mp hsame
      obtain ⟨r, hr, hne⟩ := hsome
      cases records with
      | nil => cases hr
      | cons first records =>
        left
        refine ⟨_, ⟨first, rfl, rfl⟩, fun hfirst => ?_⟩
        simp [hfirst] at hnil
    · rintro (⟨_, ⟨first, hfirst, rfl⟩, hne⟩ | ⟨hall, -⟩)
      swap
      · obtain ⟨r, hr, hne⟩ := hsome
        exact absurd (hall r hr) hne
      have hnil : records.takeWhile (·.vector.length = dim) = [] := by
        obtain ⟨tail, rfl⟩ := List.head?_eq_some_iff.mp hfirst
        exact List.takeWhile_cons_of_neg (by simpa using hne)
      have hsame : ingest s call = s := by rw [hnext, hnil, List.append_nil]
      refine ⟨fun _ _ => by rw [hsame], by rwa [hsame], ?_⟩
      intro _ embed surface topK hits h
      rw [hsame] at h
      exact distinct_of_nodup hs.nodup h

/-- In a run of ingests every one is all or nothing and keyed by node, exactly if every one meets an
index that can take it as a whole. -/
theorem ingests_exact_iff {S : Type} [LinearOrder S] [Similarity S] (dimensions : Nat)
    (calls : List Ingest) :
    EachCall ingest (Exact S) (EmbeddingResolver.new dimensions, fun _ => none) calls ↔
      EachCall ingest (fun s call => s.1.Admits call)
        (EmbeddingResolver.new dimensions, fun _ => none) calls := by
  refine eachCall_congr (I := fun s => s.1.dim = some dimensions ∧ s.1.Holds s.2)
    ⟨rfl, fun _ => rfl⟩ (fun s call _ hs => exact_iff hs.1 hs.2) fun s call _ hs hadmits => ?_
  have hexact := (exact_iff (S := S) hs.1 hs.2).mpr hadmits
  refine ⟨?_, hexact.holds⟩
  rcases ingestOntology_cases s call with ⟨-, hsame, -⟩ | ⟨_, -, -, hrec, hpush⟩
  · rw [hsame]
    exact hs.1
  · rcases ingest_eq hs.1 hrec hpush with ⟨-, hnext, -⟩ | ⟨-, hnext, -⟩
    · rw [hnext]
      exact hs.1
    · rw [hnext]
      exact hs.1

private def acme : Node := ⟨.filled 1, some ⟨"http://x/acme"⟩, ["Organization"], ∅⟩

private def initech : Node := ⟨.filled 2, some ⟨"http://x/initech"⟩, ["Organization"], ∅⟩

private def companies : Ontology := (Ontology.empty.upsertNode acme).upsertNode initech

/-- A refused second vector leaves the first record in the index, and a second ingest adds it again,
so that the two best proposals are one node. -/
theorem ingest_again_repeats :
    let _ := Similarity.signs
    let failing : EmbedBatch := fun _ => .ok [[F32.one], [F32.one, F32.one]]
    let working : EmbedBatch := fun _ => .ok [[F32.one], [F32.one]]
    let first := ingestOntology failing (EmbeddingResolver.new 1) companies
    let second := ingestOntology working first.2 companies
    first.1 = .error (.other "vector dimension mismatch: expected 1, got 2") ∧
      first.2.records.map (·.iri) = ["http://x/acme"] ∧
      second.1 = .ok 2 ∧
      second.2.records.map (·.iri) = ["http://x/acme", "http://x/acme", "http://x/initech"] ∧
      ∀ _ : SliceSort, propose (fun _ => .ok [F32.one]) second.2 "acme" 2 =
        some (.ok [("http://x/acme", Score.num (1 : Int)), ("http://x/acme", .num 1)]) := by
  intro _ failing working first second
  refine ⟨by decide +kernel, by decide +kernel, by decide +kernel, by decide +kernel, fun _ => ?_⟩
  have hscores : second.2.scores [F32.one] = [Score.num (1 : Int), .num 1, .num 1] := by
    decide +kernel
  have hsearch : second.2.search [F32.one] 2 =
      some ((second.2.ranked [F32.one] : List (VectorRecord × Score Int)).take 2) :=
    search_of_same (by decide) (by decide +kernel) (by decide +kernel) (by simp [hscores])
  have hranked : (second.2.ranked [F32.one]).map (fun (r, s) => (r.iri, s)) =
      [("http://x/acme", Score.num (1 : Int)), ("http://x/acme", .num 1),
        ("http://x/initech", .num 1)] := by decide +kernel
  simp only [propose, hsearch, Option.map_some, List.map_take, hranked]
  rfl

end VectorIndex

end AtomrOntology
