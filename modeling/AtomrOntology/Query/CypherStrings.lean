import AtomrOntology.Query.CypherPlans

/-!
# Strings in queries

A query is read with its strings misread, which leaves it as it is exactly if the strings that
count are ASCII. A string that is overwritten in its property map does not count.
-/

namespace AtomrOntology

namespace Cypher

open Sparql (isIdentStart)

variable {f : String → String}

/-- A value with its text changed. -/
def mapText (f : String → String) : PropertyValue → PropertyValue
  | .string s => .string (f s)
  | v => v

/-- A value with its strings changed denotes the changed value. -/
theorem Value.denote_map (f : String → String) (v : Value) :
    (v.map f).denote = mapText f v.denote := by
  cases v <;> rfl

/-- Entries with their strings changed leave changed values. -/
theorem get_insertEntries_map {m m' : BTreeMap String PropertyValue}
    (h : ∀ k : String, m'[k]? = m[k]?.map (mapText f)) (entries : List (Ident × Value))
    (k : String) :
    (insertEntries m' (mapEntries f entries))[k]? =
      (insertEntries m entries)[k]?.map (mapText f) := by
  induction entries generalizing m m' with
  | nil => exact h k
  | cons entry entries ih =>
    refine ih fun k => ?_
    rw [BTreeMap.get_insert, BTreeMap.get_insert, Value.denote_map]
    by_cases hk : entry.1.text = k
    · rw [if_pos hk, if_pos hk]
      rfl
    · rw [if_neg hk, if_neg hk, h]

/-- A map with its strings changed has the changed values. -/
theorem get_denoteEntries_map (entries : List (Ident × Value)) (k : String) :
    (denoteEntries (mapEntries f entries))[k]? = (denoteEntries entries)[k]?.map (mapText f) :=
  get_insertEntries_map (fun k => by simp) entries k

/-- The map denotes the same when its strings are changed. -/
def Fixed (f : String → String) (entries : List (Ident × Value)) : Prop :=
  denoteEntries (mapEntries f entries) = denoteEntries entries

/-- The string is a value in the map that the entries denote. -/
def Holds (entries : List (Ident × Value)) (s : String) : Prop :=
  ∃ k : String, (denoteEntries entries)[k]? = some (.string s)

/-- A map denotes the same if the strings that it holds do not change. -/
theorem fixed_iff {entries : List (Ident × Value)} :
    Fixed f entries ↔ ∀ s, Holds entries s → f s = s := by
  constructor
  · intro h s hs
    obtain ⟨k, hk⟩ := hs
    have hget := get_denoteEntries_map (f := f) entries k
    rw [h, hk] at hget
    simpa [mapText, eq_comm] using hget
  · intro h
    apply Std.ExtTreeMap.ext_getElem?
    intro k
    rw [get_denoteEntries_map]
    cases hk : (denoteEntries entries)[k]? with
    | none => rfl
    | some v =>
      cases v with
      | string s => exact congrArg (fun s => some (PropertyValue.string s)) (h s ⟨k, hk⟩)
      | _ => rfl

def Node.maps (n : Node) : List (List (Ident × Value)) := n.properties.toList

def EdgeBody.maps (b : EdgeBody) : List (List (Ident × Value)) := b.properties.toList

def Hop.maps (h : Hop) : List (List (Ident × Value)) :=
  h.body.toList.flatMap EdgeBody.maps ++ h.target.maps

def Negation.maps : Negation → List (List (Ident × Value))
  | .node n => n.maps
  | .inline _ _ => []

def Query.maps (q : Query) : List (List (Ident × Value)) :=
  q.seed.maps ++ q.hops.flatMap Hop.maps ++ q.negation.toList.flatMap Negation.maps

/-- The string is the value of a property in the query. -/
def Query.HasString (q : Query) (s : String) : Prop := ∃ entries ∈ q.maps, Holds entries s

/-- Properties denote the same if their strings do not change. -/
theorem denoteProperties_map (properties : Option (List (Ident × Value))) :
    denoteProperties (properties.map (mapEntries f)) = denoteProperties properties ↔
      ∀ entries ∈ properties.toList, Fixed f entries := by
  cases properties with
  | none => simp
  | some entries => simp [denoteProperties, Fixed]

/-- A node pattern denotes the same if its strings do not change. -/
theorem Node.denote_map (n : Node) :
    (n.map f).denote = n.denote ↔ ∀ entries ∈ n.maps, Fixed f entries := by
  rw [maps, ← denoteProperties_map]
  constructor
  · intro h
    exact congrArg NodePattern.properties h
  · intro h
    simp only [denote, map, h]

/-- An edge body denotes the same if its strings do not change. -/
theorem EdgeBody.denote_map (b : EdgeBody) :
    (b.map f).denote = b.denote ↔ ∀ entries ∈ b.maps, Fixed f entries := by
  rw [maps, ← denoteProperties_map]
  constructor
  · intro h
    exact congrArg EdgePattern.properties h
  · intro h
    simp only [denote, map, h]

theorem EdgeBody.denote_map_getD (body : Option EdgeBody) :
    ((body.map (EdgeBody.map f)).map EdgeBody.denote).getD .any =
      (body.map EdgeBody.denote).getD .any ↔
        ∀ entries ∈ body.toList.flatMap EdgeBody.maps, Fixed f entries := by
  cases body with
  | none => simp
  | some b => simpa using b.denote_map

/-- A hop denotes the same if its strings do not change. -/
theorem Hop.denote_map (h : Hop) :
    (h.map f).denote = h.denote ↔ ∀ entries ∈ h.maps, Fixed f entries := by
  obtain ⟨arrow, body, target⟩ := h
  simp only [maps, List.mem_append, or_imp, forall_and, ← EdgeBody.denote_map_getD,
    ← Node.denote_map]
  constructor
  · intro h
    exact ⟨congrArg TraversalStep.edge h, congrArg TraversalStep.target h⟩
  · intro h
    obtain ⟨hedge, htarget⟩ := h
    simp only [denote, map, hedge, htarget]

/-- The subject of a negation has no strings. -/
theorem Negation.subject_map (neg : Negation) : (neg.map f).subject = neg.subject := by
  cases neg <;> rfl

/-- A negated pattern stays the same if its strings do not change. -/
theorem Negation.pattern_map {neg : Negation} (h : ∀ entries ∈ neg.maps, Fixed f entries) :
    (neg.map f).pattern = neg.pattern := by
  cases neg with
  | node n => exact n.denote_map.mpr h
  | inline bind labels => rfl

/-- The strings of a negated pattern that stays the same do not change. -/
theorem Negation.fixed_of_denote_map {neg : Negation} (h : (neg.map f).denote = neg.denote) :
    ∀ entries ∈ neg.maps, Fixed f entries := by
  cases neg with
  | node n =>
    rw [maps, Node.maps, ← denoteProperties_map]
    exact congrArg NodePattern.properties h
  | inline bind labels =>
    intro entries he
    cases he

variable {q : Query}

/-- The parts of a query that denote the same have the same plan. -/
theorem Query.denote_map_of_fixed (h : ∀ entries ∈ q.maps, Fixed f entries) :
    (q.map f).denote = q.denote := by
  simp only [maps, List.mem_append, or_imp, forall_and] at h
  obtain ⟨⟨hseed, hhops⟩, hneg⟩ := h
  have hseed := q.seed.denote_map.mpr hseed
  have hhops : (q.hops.map (Hop.map f)).map Hop.denote = q.hops.map Hop.denote := by
    rw [List.map_map, List.map_inj_left]
    intro hop hmem
    exact hop.denote_map.mpr fun entries he => hhops entries (List.mem_flatMap.mpr ⟨hop, hmem, he⟩)
  have hpath : (q.map f).path = q.path := by
    simp only [path, map, hseed, hhops]
  rw [← plan_eq_denote, ← plan_eq_denote, plan, plan, hpath]
  have hnegation : (q.map f).negation = q.negation.map (Negation.map f) := rfl
  rw [hnegation]
  cases hq : q.negation with
  | none => rfl
  | some neg =>
    have hpattern : (neg.map f).pattern = neg.pattern := by
      apply Negation.pattern_map
      simpa [hq] using hneg
    rw [Option.map_some]
    simp only [hpattern]
    rfl

/-- Where a negation applies does not depend on strings. -/
theorem Query.site_map (q : Query) (name : Option String) : (q.map f).site name = q.site name := by
  have hnodes : ((q.map f).seed :: (q.map f).hops.map Hop.target) =
      (q.seed :: q.hops.map Hop.target).map (Node.map f) := by
    simp only [map, List.map_cons, List.map_map]
    rfl
  rw [site, site, hnodes, List.findIdx?_map]
  rfl

/-- A negation applies to the seed or to the target of a hop. -/
theorem Query.site_le (q : Query) (name : Option String) : q.site name ≤ q.hops.length := by
  rw [site]
  cases h : (q.seed :: q.hops.map Hop.target).findIdx? fun n =>
      name.isSome && n.bind.map Ident.text == name with
  | none => exact Nat.zero_le _
  | some i =>
    have hlt := (List.findIdx?_eq_some_iff_getElem.mp h).1
    simp only [List.length_cons, List.length_map] at hlt
    exact Nat.le_of_lt_succ hlt

/-- The steps of a plan are the hops of the query, with the negation at its place. -/
theorem Query.getElem_steps (q : Query) (i : Nat) :
    q.denote.steps[i]? =
      q.hops[i]?.map fun hop => { hop.denote with target := q.denoteNode (i + 1) hop.target } := by
  rw [denote, List.getElem?_mapIdx]

/-- Both plans have the same nodes, so the same patterns are negated at a node. -/
theorem Query.not_denoteNode {neg : Negation} (hq : q.negation = some neg) {i : Nat} {n : Node}
    (hsite : q.site neg.subject = i)
    (h : (q.map f).denoteNode i (n.map f) = q.denoteNode i n) :
    (neg.map f).denote = neg.denote := by
  have hq' : (q.map f).negation = some (neg.map f) := congrArg (Option.map (Negation.map f)) hq
  have hsite' : (q.map f).site (neg.map f).subject = i := by
    rw [site_map, neg.subject_map, hsite]
  rw [denoteNode_site hq' hsite', denoteNode_site hq hsite, attachNotTo_pattern,
    attachNotTo_pattern] at h
  simpa using congrArg NodePattern.not h

/-- From the plan the meaning of each part can be read. -/
theorem Query.fixed_of_denote_map (h : (q.map f).denote = q.denote) :
    ∀ entries ∈ q.maps, Fixed f entries := by
  have hhop : ∀ (i : Nat) (hop : Hop), q.hops[i]? = some hop →
      ({ (hop.map f).denote with
        target := (q.map f).denoteNode (i + 1) (hop.target.map f) } : TraversalStep) =
          { hop.denote with target := q.denoteNode (i + 1) hop.target } := by
    intro i hop hi
    have hstep := congrArg (fun plan => plan.steps[i]?) h
    simp only [getElem_steps, map, List.getElem?_map, hi] at hstep
    exact Option.some.inj hstep
  simp only [maps, List.mem_append, or_imp, forall_and]
  refine ⟨⟨?_, ?_⟩, ?_⟩
  · rw [Node.maps, ← denoteProperties_map]
    exact congrArg (fun plan => plan.seed.properties) h
  · intro entries he
    obtain ⟨hop, hmem, he⟩ := List.mem_flatMap.mp he
    obtain ⟨i, hi⟩ := List.mem_iff_getElem?.mp hmem
    have hstep := hhop i hop hi
    rcases List.mem_append.mp he with he | he
    · exact (EdgeBody.denote_map_getD hop.body).mp (congrArg TraversalStep.edge hstep) entries he
    · have hprops := congrArg (fun step => step.target.properties) hstep
      exact (denoteProperties_map hop.target.properties).mp hprops entries he
  · cases hq : q.negation with
    | none => simp
    | some neg =>
      have hneg : (neg.map f).denote = neg.denote := by
        cases hsite : q.site neg.subject with
        | zero => exact not_denoteNode hq hsite (congrArg TraversalPlan.seed h)
        | succ i =>
          have hlt := q.site_le neg.subject
          obtain ⟨hop, hi⟩ : ∃ hop, q.hops[i]? = some hop :=
            ⟨_, List.getElem?_eq_getElem (by omega)⟩
          exact not_denoteNode hq hsite (congrArg TraversalStep.target (hhop i hop hi))
      simpa using Negation.fixed_of_denote_map hneg

/-- The plan is the same exactly if the maps are. -/
theorem Query.denote_map_iff : (q.map f).denote = q.denote ↔ ∀ entries ∈ q.maps, Fixed f entries :=
  ⟨fixed_of_denote_map, denote_map_of_fixed⟩

/-- The strings that count are ASCII. -/
def Query.Ascii (q : Query) : Prop := ∀ s, q.HasString s → ∀ c ∈ s.toList, c.toNat < 128

/-- A query that is read byte by byte is the same query exactly if its strings are ASCII. -/
theorem Query.map_misread_iff : (q.map misread).denote = q.denote ↔ q.Ascii := by
  rw [denote_map_iff]
  simp only [fixed_iff, misread_eq_iff]
  constructor
  · intro h s hs
    obtain ⟨entries, hmem, hholds⟩ := hs
    exact h entries hmem s hholds
  · intro h entries hmem s hholds
    exact h s ⟨entries, hmem, hholds⟩

/-- A printed query with ASCII strings and bounds in order is read as the plan it denotes. -/
theorem parse_reads_query {q : Query} {text : String} (hascii : q.Ascii) (hv : q.InOrder)
    (h : lexis.Printed q.tokens text.toList) : parse text = .ok q.denote := by
  rw [parse_printed hv h, Query.map_misread_iff.mpr hascii]

/-- An identifier of letters. -/
private def letter (c : Char) (h : isIdentStart c = true) : Ident := ⟨[c], h, by simp⟩

/-- `MATCH (a {k: "x"})-[:r*2..3]->(b) WHERE NOT (b:T) RETURN b LIMIT 5`. -/
private def sampleQuery : Query where
  seed := ⟨some (letter 'a' rfl), [], some [(letter 'k' rfl, .string "x")]⟩
  hops := [⟨.right, some ⟨none, some (letter 'r' rfl), some (.between 2 3), none⟩,
    ⟨some (letter 'b' rfl), [], none⟩⟩]
  negation := some (.node ⟨some (letter 'b' rfl), [letter 'T' rfl], none⟩)
  column := letter 'b' rfl
  columns := []
  limit := some 5

private theorem ascii_sampleQuery : sampleQuery.Ascii := by
  intro s hs
  obtain ⟨entries, hmem, k, hk⟩ := hs
  obtain rfl : entries = [(letter 'k' rfl, .string "x")] := by
    simpa [Query.maps, sampleQuery, Node.maps, Hop.maps, EdgeBody.maps, Negation.maps] using hmem
  simp only [denoteEntries, List.foldl_cons, List.foldl_nil, BTreeMap.get_insert] at hk
  split at hk
  · have hx : s = "x" := (PropertyValue.string.inj (Option.some.inj hk)).symm
    subst hx
    simp
  · simp at hk

/-- A query with a repetition, a negation and a limit. -/
theorem parse_reads_query_sample : parse sampleQuery.text = .ok sampleQuery.denote := by
  refine parse_reads_query ascii_sampleQuery ?_ sampleQuery.printed_text
  intro hop hhop b hb v hv
  obtain rfl := List.mem_singleton.mp hhop
  obtain rfl := Option.some.inj hb
  obtain rfl := Option.some.inj hv
  exact (by decide : (2 : UInt64) ≤ 3)

/-- The bounds are in order where both are written. -/
def VarLen.Ordered : VarLen → Prop
  | .between m n => m ≤ n
  | _ => True

/-- A query whose upper bound is below the lower one that is not written. -/
private def emptyRangeQuery : Query where
  seed := ⟨some (letter 'a' rfl), [], none⟩
  hops := [⟨.right, some ⟨none, none, some (.atMost 0), none⟩, ⟨some (letter 'b' rfl), [], none⟩⟩]
  negation := none
  column := letter 'b' rfl
  columns := []
  limit := none

/-- The parser rejects `*..0`. -/
theorem empty_range_is_rejected : ¬∀ (q : Query) (text : String), q.Ascii →
    (∀ hop ∈ q.hops, ∀ b ∈ hop.body, ∀ v ∈ b.varLen, v.Ordered) →
    lexis.Printed q.tokens text.toList → parse text = .ok q.denote := by
  intro h
  have hascii : emptyRangeQuery.Ascii := by
    intro s hs
    obtain ⟨entries, hmem, -⟩ := hs
    simp [Query.maps, emptyRangeQuery, Node.maps, Hop.maps, EdgeBody.maps] at hmem
  have hok := h emptyRangeQuery emptyRangeQuery.text hascii ?_ emptyRangeQuery.printed_text
  · have herr : parse emptyRangeQuery.text = .error (.emptyRange 0 1) := by rfl
    rw [herr] at hok
    cases hok
  · intro hop hhop b hb v hv
    obtain rfl := List.mem_singleton.mp hhop
    obtain rfl := Option.some.inj hb
    obtain rfl := Option.some.inj hv
    trivial

/-- A node has a string as a property if that very string is stored. -/
theorem hasProperty_string {properties : BTreeMap String PropertyValue} {key s : String} :
    hasProperty properties (key, .string s) = true ↔ properties[key]? = some (.string s) := by
  unfold hasProperty
  cases properties[key]? with
  | none => simp
  | some v => cases v <;> simp [PropertyValue.eq]

/-- A pattern with one string and nothing else. -/
theorem matchNode_string {bind : Option String} {key s : String} {node : AtomrOntology.Node} :
    matchNode node { NodePattern.any with
      bind, properties := (∅ : BTreeMap String PropertyValue).insert key (.string s) } = true ↔
        node.properties[key]? = some (.string s) := by
  have hall : ((∅ : BTreeMap String PropertyValue).insert key (.string s)).toList.all
      (hasProperty node.properties) = true ↔ node.properties[key]? = some (.string s) := by
    rw [← hasProperty_string, List.all_eq_true]
    simp only [Prod.forall, Std.ExtTreeMap.mem_toList_iff_getElem?_eq_some, BTreeMap.get_insert]
    constructor
    · intro h
      exact h key _ (if_pos rfl)
    · intro h k v hv
      by_cases hk : key = k
      · subst hk
        rw [if_pos rfl] at hv
        exact Option.some.inj hv ▸ h
      · simp [hk] at hv
  rw [← hall]
  simp [matchNode, NodePattern.any, matchAny]

/-- The seed of a query asks for one string property and nothing else. -/
structure Query.AsksFor (q : Query) (key : Ident) (s : String) : Prop where
  labels : q.seed.labels = []
  properties : q.seed.properties = some [(key, .string s)]
  negation : q.negation = none

/-- The plan that is read matches the nodes that have the property. -/
def MatchesExactly (text : String) (key : Ident) (s : String) : Prop :=
  ∃ plan, parse text = .ok plan ∧ ∀ node, matchNode node plan.seed = true ↔
    node.properties[key.text]? = some (.string s)

/-- A query that asks for a string asks for the misread one. -/
theorem Query.AsksFor.seed {q : Query} {key : Ident} {s : String} (h : q.AsksFor key s) :
    (q.map misread).denote.seed = { NodePattern.any with
      bind := q.seed.bind.map Ident.text
      properties :=
        (∅ : BTreeMap String PropertyValue).insert key.text (.string (misread s)) } := by
  have hnegation : (q.map misread).negation = none := by
    rw [map, h.negation]
    rfl
  have hdenote : (q.map misread).denote.seed = (q.map misread).denoteNode 0 (q.seed.map misread) :=
    rfl
  rw [hdenote, denoteNode_of_none hnegation, Node.denote, Node.map, h.labels, h.properties]
  rfl

/-- A query is read as it is written exactly if its strings are ASCII, and a pattern for a
string matches the nodes with that string exactly if it is ASCII. -/
theorem literals_denote_iff_ascii {q : Query} {text : String} (hv : q.InOrder)
    (h : lexis.Printed q.tokens text.toList) :
    (parse text = .ok q.denote ↔ q.Ascii) ∧
    ∀ key s, q.AsksFor key s →
      (MatchesExactly text key s ↔ ∀ c ∈ s.toList, c.toNat < 128) := by
  have hparse := parse_printed hv h
  constructor
  · rw [hparse, ← Query.map_misread_iff]
    constructor
    · intro heq
      exact Except.ok.inj heq
    · intro heq
      rw [heq]
  · intro key s hasks
    rw [← misread_eq_iff]
    constructor
    · intro hmatch
      obtain ⟨plan, hplan, hnode⟩ := hmatch
      rw [hparse] at hplan
      obtain rfl := Except.ok.inj hplan
      -- A node with the string that is read instead is matched.
      let node : AtomrOntology.Node := ⟨.filled 0, none, [],
        (∅ : BTreeMap String PropertyValue).insert key.text (.string (misread s))⟩
      have hget : node.properties[key.text]? = some (.string (misread s)) := by
        rw [BTreeMap.get_insert, if_pos rfl]
      have hmatches := (hnode node).mp (by rw [hasks.seed, matchNode_string, hget])
      rw [hget] at hmatches
      exact PropertyValue.string.inj (Option.some.inj hmatches)
    · intro heq
      refine ⟨_, hparse, fun node => ?_⟩
      rw [hasks.seed, matchNode_string, heq]

/-- `MATCH (a {k: "s"}) RETURN a`. -/
private def askQuery (s : String) : Query where
  seed := ⟨some (letter 'a' rfl), [], some [(letter 'k' rfl, .string s)]⟩
  hops := []
  negation := none
  column := letter 'a' rfl
  columns := []
  limit := none

private theorem asksFor_askQuery (s : String) : (askQuery s).AsksFor (letter 'k' rfl) s :=
  ⟨rfl, rfl, rfl⟩

private theorem inOrder_askQuery (s : String) : (askQuery s).InOrder := by
  intro hop hhop
  cases hhop

private theorem hasString_askQuery {s t : String} : (askQuery s).HasString t ↔ t = s := by
  have hget : ∀ k : String, (denoteEntries [(letter 'k' rfl, .string s)])[k]? =
      if "k" = k then some (PropertyValue.string s) else none := by
    intro k
    rw [denoteEntries, List.foldl_cons, List.foldl_nil, BTreeMap.get_insert,
      Std.ExtTreeMap.getElem?_empty]
    rfl
  simp only [Query.HasString, Query.maps, askQuery, Node.maps, Option.toList_some,
    List.flatMap_nil, Option.toList_none, List.append_nil, List.mem_singleton,
    exists_eq_left, Holds,
    hget]
  constructor
  · intro h
    obtain ⟨k, hk⟩ := h
    split at hk
    · exact (PropertyValue.string.inj (Option.some.inj hk)).symm
    · cases hk
  · intro h
    exact ⟨"k", by rw [if_pos rfl, h]⟩

/-- The two bytes of `é` become two characters. -/
theorem accent_is_misread : ¬∀ (q : Query) (text : String) (key : Ident) (s : String), q.InOrder →
    lexis.Printed q.tokens text.toList → q.AsksFor key s →
      parse text = .ok q.denote ∧ MatchesExactly text key s := by
  intro h
  have hread := (h (askQuery "é") _ _ "é" (inOrder_askQuery _) (askQuery "é").printed_text
    (asksFor_askQuery "é")).1
  rw [parse_printed (inOrder_askQuery _) (askQuery "é").printed_text] at hread
  have hascii := Query.map_misread_iff.mp (Except.ok.inj hread) "é" (hasString_askQuery.mpr rfl)
  revert hascii
  simp

/-- An ASCII string. -/
theorem literals_denote_ask : parse (askQuery "x").text = .ok (askQuery "x").denote ∧
    MatchesExactly (askQuery "x").text (letter 'k' rfl) "x" := by
  have hascii : ∀ c ∈ "x".toList, c.toNat < 128 := by
    simp
  have h := literals_denote_iff_ascii (inOrder_askQuery "x") (askQuery "x").printed_text
  refine ⟨h.1.mpr fun s hs => ?_, (h.2 _ "x" (asksFor_askQuery "x")).mpr hascii⟩
  obtain rfl := hasString_askQuery.mp hs
  exact hascii

end Cypher

end AtomrOntology
