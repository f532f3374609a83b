import AtomrOntology.Query.CypherStrings
import AtomrOntology.Query.Walks

/-!
# What a Cypher query answers

A query is read against a graph without its plan: nodes along the path, each with the labels
and properties that are written, each hop over as few edges as lead there and as many as its
length allows. The rows of the plan that the text is parsed to are these matches, one row for
each.
-/

namespace AtomrOntology

open Walk

namespace Cypher

/-- The value that is written for a key, the last one if there are several. -/
def valueOf (entries : List (Ident × Value)) (key : String) : Option PropertyValue :=
  (entries.reverse.find? fun entry => entry.1.text = key).map fun entry => entry.2.denote

/-- The properties have the values that are written. -/
def HasValues (properties : BTreeMap String PropertyValue) (entries : List (Ident × Value)) :
    Prop :=
  ∀ key v, valueOf entries key = some v → properties[key]? = some v

/-- A stored node has the labels and properties of a written one. -/
def Node.Fits (n : Node) (node : AtomrOntology.Node) : Prop :=
  (∀ l ∈ n.labels, l.text ∈ node.types) ∧ HasValues node.properties (n.properties.getD [])

/-- A stored node is as a negation says. -/
def Negation.Fits : Negation → AtomrOntology.Node → Prop
  | .node n, stored => n.Fits stored
  | .inline _ labels, stored => ∀ l ∈ labels, l.text ∈ stored.types

/-- A stored edge has the label and the properties in the brackets. -/
def EdgeBody.Fits (b : EdgeBody) (edge : Edge) : Prop :=
  (∀ l ∈ b.label, edge.label = l.text) ∧ HasValues edge.properties (b.properties.getD [])

/-- An arrow leads from one end of an edge to the other; without a head it goes forwards. -/
def Arrow.Leads : Arrow → Edge → NodeId → NodeId → Prop
  | .left, e, x, y => e.target = x ∧ e.source = y
  | _, e, x, y => e.source = x ∧ e.target = y

/-- One edge of a hop. -/
def Hop.Connects (h : Hop) (o : Ontology) (x y : NodeId) : Prop :=
  ∃ e ∈ o.edges.vals, (∀ b ∈ h.body, b.Fits e) ∧ h.arrow.Leads e x y

/-- The numbers of edges that a length allows. -/
def VarLen.Allows : VarLen → Nat → Prop
  | .any, n => 1 ≤ n ∧ n < 2 ^ 64
  | .exactly m, n => n = m.toNat
  | .atLeast m, n => m.toNat ≤ n ∧ n < 2 ^ 64
  | .atMost m, n => 1 ≤ n ∧ n ≤ m.toNat
  | .between l m, n => l.toNat ≤ n ∧ n ≤ m.toNat

/-- The numbers of edges that a hop allows: one, unless it says otherwise. -/
def Hop.Allows (h : Hop) (n : Nat) : Prop :=
  match h.body.bind EdgeBody.varLen with
  | some v => v.Allows n
  | none => n = 1

/-- A stored node fits the node at a position of the path, and not a negation that belongs to
it. -/
def Query.FitsAt (q : Query) (o : Ontology) (position : Nat) (n : Node) (x : NodeId) : Prop :=
  ∃ node, o.nodes[x]? = some node ∧ n.Fits node ∧
    ∀ neg ∈ q.negation, q.site neg.subject = position → ¬neg.Fits node

/-- Nodes along some hops from a position on. A hop goes over as few edges as lead there. -/
def Query.MatchesFrom (q : Query) (o : Ontology) : Nat → List Hop → NodeId → List NodeId → Prop
  | _, [], _, [] => True
  | position, hop :: hops, x, y :: ys =>
    (q.FitsAt o position hop.target y ∧ ∃ n, hop.Allows n ∧ AtDistance (hop.Connects o) x n y) ∧
      q.MatchesFrom o (position + 1) hops y ys
  | _, _, _, _ => False

/-- Nodes along the path of a query. -/
def Query.Matches (q : Query) (o : Ontology) : List NodeId → Prop
  | [] => False
  | x :: ys => q.FitsAt o 0 q.seed x ∧ q.MatchesFrom o 1 q.hops x ys

/-- Bind a node of the path under its name, if it has one. -/
def bindNode (nodes : BTreeMap String NodeId) (v : Node × NodeId) : BTreeMap String NodeId :=
  match v.1.bind with
  | some name => nodes.insert name.text v.2
  | none => nodes

/-- The returned names of a match. A name that is written twice is bound to the later node. -/
def Query.answer (q : Query) (xs : List NodeId) : BTreeMap String NodeId :=
  (((q.seed :: q.hops.map Hop.target).zip xs).foldl bindNode ∅).filter fun name _ =>
    name ∈ (q.column :: q.columns).map Ident.text

/-- A map has the last value that was written for a key. -/
theorem get_denoteEntries (entries : List (Ident × Value)) (key : String) :
    (denoteEntries entries)[key]? = valueOf entries key := by
  induction entries using List.reverseRecOn with
  | nil => rfl
  | append_singleton entries last ih =>
    have hinsert : denoteEntries (entries ++ [last]) =
        (denoteEntries entries).insert last.1.text last.2.denote := by
      rw [denoteEntries, List.foldl_append]
      rfl
    rw [hinsert, BTreeMap.get_insert, ih, valueOf, valueOf, List.reverse_append]
    by_cases hkey : last.1.text = key
    · simp [hkey]
    · simp [hkey]

/-- A stored value equals that of a query if they are the same. -/
theorem Value.eq_denote_iff (v : Value) (stored : PropertyValue) :
    stored.eq v.denote = true ↔ stored = v.denote := by
  cases v <;> cases stored <;> simp [Value.denote, PropertyValue.eq]

/-- The properties of a pattern are those that are written. -/
theorem hasValues_iff (properties : BTreeMap String PropertyValue)
    (entries : Option (List (Ident × Value))) :
    (denoteProperties entries).toList.all (hasProperty properties) = true ↔
      HasValues properties (entries.getD []) := by
  rw [List.all_eq_true, HasValues]
  simp only [Prod.forall, Std.ExtTreeMap.mem_toList_iff_getElem?_eq_some, denoteProperties,
    get_denoteEntries]
  refine forall₂_congr fun key v => imp_congr_right fun hvalue => ?_
  obtain ⟨entry, -, rfl⟩ := Option.map_eq_some_iff.mp hvalue
  unfold hasProperty
  cases hstored : properties[key]? with
  | none => simp
  | some stored => simp [Value.eq_denote_iff]

/-- The pattern of a node matches the nodes that fit it. -/
theorem Node.matchNode_denote (n : Node) (stored : AtomrOntology.Node) :
    matchNode stored n.denote = true ↔ n.Fits stored := by
  have hvalues := hasValues_iff stored.properties n.properties
  simp only [denote, NodePattern.any, matchNode, matchAny, Bool.and_eq_true, hvalues]
  simp [Fits, AtomrOntology.Node.hasType]

/-- The pattern of a negation matches the nodes that fit it. -/
theorem Negation.matchNode_denote (neg : Negation) (stored : AtomrOntology.Node) :
    matchNode stored neg.denote = true ↔ neg.Fits stored := by
  cases neg with
  | node n => exact n.matchNode_denote stored
  | inline bind labels =>
    simp [denote, Fits, NodePattern.any, matchNode, matchAny, AtomrOntology.Node.hasType]

/-- A node matches some of the patterns if it matches one of them. -/
theorem matchAny_iff {stored : AtomrOntology.Node} {patterns : List NodePattern} :
    matchAny stored patterns = true ↔ ∃ pattern ∈ patterns, matchNode stored pattern = true := by
  induction patterns with
  | nil => simp [matchAny]
  | cons pattern rest ih => simp [matchAny, ih]

/-- A pattern with negated ones beside it. -/
theorem matchNode_not (stored : AtomrOntology.Node) (n : Node) (negated : List NodePattern) :
    matchNode stored { n.denote with not := negated } = true ↔
      n.Fits stored ∧ ∀ pattern ∈ negated, matchNode stored pattern = false := by
  have hplain := n.matchNode_denote stored
  simp only [Node.denote, NodePattern.any, matchNode, matchAny, Bool.not_false, Bool.and_true]
    at hplain ⊢
  rw [Bool.and_eq_true, hplain, Bool.not_eq_true', ← Bool.not_eq_true, matchAny_iff]
  simp

/-- With the negation at its place, a pattern matches the nodes that fit it and not the negation. -/
theorem Query.matchNode_denoteNode (q : Query) (position : Nat) (n : Node)
    (stored : AtomrOntology.Node) : matchNode stored (q.denoteNode position n) = true ↔
      n.Fits stored ∧ ∀ neg ∈ q.negation, q.site neg.subject = position → ¬neg.Fits stored := by
  rw [denoteNode, matchNode_not]
  refine and_congr_right fun _ => ?_
  cases q.negation with
  | none => simp
  | some neg =>
    have hneg := neg.matchNode_denote stored
    by_cases hsite : q.site neg.subject = position
    · simp [Option.filter, hsite, ← hneg]
    · simp [Option.filter, hsite]

/-- The pattern of an edge matches the edges that fit it. -/
theorem EdgeBody.matchEdge_denote (b : EdgeBody) (edge : Edge) :
    matchEdge edge b.denote = true ↔ b.Fits edge := by
  have hvalues := hasValues_iff edge.properties b.properties
  simp only [denote, matchEdge, Bool.and_eq_true, hvalues, Fits]
  cases b.label <;> simp

/-- Without a body every edge fits. -/
theorem Hop.matchEdge_denote (h : Hop) (edge : Edge) :
    matchEdge edge h.denote.edge = true ↔ ∀ b ∈ h.body, b.Fits edge := by
  rw [denote]
  cases h.body with
  | none => simp [matchEdge, EdgePattern.any]
  | some b => simpa using b.matchEdge_denote edge

/-- A step follows an edge the way the arrow leads. -/
theorem Hop.leads_iff (h : Hop) (edge : Edge) (x y : NodeId) :
    h.denote.near edge = x ∧ h.denote.far edge = y ↔ h.arrow.Leads edge x y := by
  unfold TraversalStep.near TraversalStep.far denote
  cases h.arrow <;> simp [Arrow.Leads]

/-- A hop of a plan goes where the hop of the query does. -/
theorem Hop.hop_denote (h : Hop) (o : Ontology) (target : NodePattern) :
    AtomrOntology.Hop o { h.denote with target } = h.Connects o := by
  ext x y
  have hstep : ∀ e : Edge, matchEdge e h.denote.edge = true ∧ h.denote.near e = x ∧
      h.denote.far e = y ↔ (∀ b ∈ h.body, b.Fits e) ∧ h.arrow.Leads e x y := by
    intro e
    rw [h.matchEdge_denote, h.leads_iff]
  exact exists_congr fun e => and_congr_right fun _ => hstep e

/-- The bounds of a plan allow the distances that those of the query do. -/
theorem VarLen.allows_iff (v : VarLen) (n : Nat) :
    v.denote.min.toNat ≤ n ∧ n ≤ v.denote.max.toNat ↔ v.Allows n := by
  have hmax : (UInt64.ofNat (2 ^ 64 - 1)).toNat = 2 ^ 64 - 1 := by decide
  have hone : (1 : UInt64).toNat = 1 := rfl
  cases v with
  | any =>
    simp only [denote, Allows, hmax, hone]
    omega
  | exactly m =>
    simp only [denote, Allows]
    omega
  | atLeast m =>
    simp only [denote, Allows, hmax]
    omega
  | atMost m => simp only [denote, Allows, hone]
  | between l m => simp only [denote, Allows]

/-- The window of a step holds the numbers of edges that its hop allows. -/
theorem Hop.allows_iff (h : Hop) (target : NodePattern) (n : Nat) :
    ({ h.denote with target } : TraversalStep).range.min.toNat ≤ n ∧
      n ≤ ({ h.denote with target } : TraversalStep).range.max.toNat ↔ h.Allows n := by
  have hone :
    ∀ m, (⟨1, 1⟩ : RangeInclusive).min.toNat ≤ m ∧ m ≤ (⟨1, 1⟩ : RangeInclusive).max.toNat ↔
      m = 1 := by
    intro m
    have h1 : (1 : UInt64).toNat = 1 := rfl
    simp only [h1]
    omega
  unfold TraversalStep.range Allows denote
  cases h.body with
  | none => exact hone n
  | some b =>
    cases hlen : b.varLen with
    | none => simpa [EdgeBody.denote, hlen] using hone n
    | some v => simpa [EdgeBody.denote, hlen] using v.allows_iff n

section

variable {q : Query} {o : Ontology} {x : NodeId}

/-- The steps of some hops from a position on. -/
def Query.stepsFrom (q : Query) (position : Nat) (hops : List Hop) : List TraversalStep :=
  hops.mapIdx fun i hop => { hop.denote with target := q.denoteNode (i + position) hop.target }

theorem Query.stepsFrom_cons (position : Nat) (hop : Hop) (hops : List Hop) :
    q.stepsFrom position (hop :: hops) =
      { hop.denote with target := q.denoteNode position hop.target } ::
        q.stepsFrom (position + 1) hops := by
  simp [stepsFrom, List.mapIdx_cons, Nat.add_assoc, Nat.add_comm 1]

/-- The target of a step is a stored node that fits, and not the negation if that is its place. -/
theorem Query.isTarget_iff {position : Nat} {hop : Hop} {y : NodeId} :
    IsTarget o { hop.denote with target := q.denoteNode position hop.target } y ↔
      q.FitsAt o position hop.target y :=
  exists_congr fun stored => and_congr_right fun _ => q.matchNode_denoteNode position _ stored

/-- The walks along the steps are the matches of the hops. -/
theorem Query.visitsFrom_iff {position : Nat} {hops : List Hop} {visits : List Visit} :
    VisitsFrom o (q.stepsFrom position hops) x visits ↔ ∃ ys,
      visits = ((q.stepsFrom position hops).map TraversalStep.target).zip ys ∧
        q.MatchesFrom o position hops x ys := by
  induction hops generalizing position x visits with
  | nil =>
    cases visits with
    | nil => exact iff_of_true trivial ⟨[], rfl, trivial⟩
    | cons v visits => exact iff_of_false id fun hys => by simp [stepsFrom] at hys
  | cons hop hops ih =>
    rw [stepsFrom_cons]
    cases visits with
    | nil =>
      refine iff_of_false id fun hys => ?_
      obtain ⟨ys, heq, hmatch⟩ := hys
      cases ys with
      | nil => exact hmatch
      | cons y ys => cases heq
    | cons v visits =>
      obtain ⟨pattern, y⟩ := v
      have hwindow : (∃ n, ({ hop.denote with target := q.denoteNode position hop.target } :
          TraversalStep).range.min.toNat ≤ n ∧
            n ≤ ({ hop.denote with target := q.denoteNode position hop.target } :
              TraversalStep).range.max.toNat ∧
            AtDistance (AtomrOntology.Hop o
              { hop.denote with target := q.denoteNode position hop.target }) x n y) ↔
          ∃ n, hop.Allows n ∧ AtDistance (hop.Connects o) x n y := by
        rw [hop.hop_denote]
        refine exists_congr fun n => ?_
        rw [← and_assoc, hop.allows_iff]
      simp only [VisitsFrom, isTarget_iff, hwindow, ih]
      constructor
      · rintro ⟨rfl, hfits, ys, rfl, hmatch⟩
        exact ⟨y :: ys, rfl, hfits, hmatch⟩
      · rintro ⟨ys, heq, hmatch⟩
        cases ys with
        | nil => exact hmatch.elim
        | cons z ys =>
          obtain ⟨hfirst, hzip⟩ := List.cons.inj heq
          obtain ⟨rfl, rfl⟩ := Prod.mk.inj hfirst
          exact ⟨rfl, hmatch.1, ys, hzip, hmatch.2⟩

theorem Query.steps_denote : q.denote.steps = q.stepsFrom 1 q.hops := rfl

/-- The plan of a query visits its matches. -/
theorem Query.isVisited_iff (hkeyed : o.nodes.KeyedBy AtomrOntology.Node.id) {visits : List Visit} :
    IsVisited o q.denote visits ↔
      ∃ xs, visits = q.denote.patterns.zip xs ∧ q.Matches o xs := by
  have hseed : ∀ x, (∃ stored ∈ o.nodes.vals, matchNode stored q.denote.seed ∧ stored.id = x) ↔
      q.FitsAt o 0 q.seed x := by
    intro x
    have hpattern : ∀ stored, matchNode stored q.denote.seed = true ↔ q.seed.Fits stored ∧
        ∀ neg ∈ q.negation, q.site neg.subject = 0 → ¬neg.Fits stored :=
      fun stored => q.matchNode_denoteNode 0 q.seed stored
    constructor
    · rintro ⟨stored, hstored, hmatch, rfl⟩
      obtain ⟨k, hk⟩ := BTreeMap.mem_vals.mp hstored
      obtain rfl := hkeyed k stored hk
      exact ⟨stored, hk, (hpattern stored).mp hmatch⟩
    · rintro ⟨stored, hk, hfits⟩
      exact ⟨stored, BTreeMap.mem_vals.mpr ⟨x, hk⟩, (hpattern stored).mpr hfits, hkeyed x stored hk⟩
  cases visits with
  | nil =>
    refine iff_of_false id fun hxs => ?_
    obtain ⟨xs, heq, hmatch⟩ := hxs
    cases xs with
    | nil => exact hmatch
    | cons x xs => cases heq
  | cons v visits =>
    obtain ⟨pattern, x⟩ := v
    simp only [IsVisited, hseed, steps_denote, visitsFrom_iff]
    constructor
    · rintro ⟨rfl, hfits, ys, rfl, hmatch⟩
      exact ⟨x :: ys, rfl, hfits, hmatch⟩
    · rintro ⟨xs, heq, hmatch⟩
      cases xs with
      | nil => exact hmatch.elim
      | cons z ys =>
        obtain ⟨hfirst, hzip⟩ := List.cons.inj heq
        obtain ⟨rfl, rfl⟩ := Prod.mk.inj hfirst
        exact ⟨rfl, hmatch.1, ys, hzip, hmatch.2⟩

/-- A match has a node for each hop. -/
theorem Query.length_matchesFrom {position : Nat} {hops : List Hop} {ys : List NodeId}
    (h : q.MatchesFrom o position hops x ys) : ys.length = hops.length := by
  induction hops generalizing position x ys with
  | nil =>
    cases ys with
    | nil => rfl
    | cons y ys => exact h.elim
  | cons hop hops ih =>
    cases ys with
    | nil => exact h.elim
    | cons y ys => exact congrArg (· + 1) (ih h.2)

/-- A match has a node for each pattern. -/
theorem Query.Matches.length {xs : List NodeId} (h : q.Matches o xs) :
    q.denote.patterns.length = xs.length := by
  cases xs with
  | nil => exact h.elim
  | cons x ys =>
    rw [TraversalPlan.patterns, steps_denote, List.length_cons, List.length_cons, List.length_map,
      stepsFrom, List.length_mapIdx, length_matchesFrom h.2]

/-- Patterns bind as the nodes of the path that they are made from. -/
theorem bindAll_zip {patterns : List NodePattern} {nodes : List Node}
    (h : patterns.map NodePattern.bind = nodes.map fun n => n.bind.map Ident.text)
    (xs : List NodeId) : bindAll (patterns.zip xs) = (nodes.zip xs).foldl bindNode ∅ := by
  suffices hfrom : ∀ m : BTreeMap String NodeId,
      (patterns.zip xs).foldl bindVisit m = (nodes.zip xs).foldl bindNode m from hfrom ∅
  induction patterns generalizing nodes xs with
  | nil =>
    obtain rfl := List.map_eq_nil_iff.mp h.symm
    exact fun m => rfl
  | cons pattern patterns ih =>
    cases nodes with
    | nil => cases h
    | cons n nodes =>
      have hbind : pattern.bind = n.bind.map Ident.text := (List.cons.inj h).1
      have hrest := (List.cons.inj h).2
      cases xs with
      | nil => exact fun m => rfl
      | cons x xs =>
        intro m
        have hfirst : bindVisit m (pattern, x) = bindNode m (n, x) := by
          unfold bindVisit bindNode
          rw [hbind]
          cases n.bind <;> rfl
        rw [List.zip_cons_cons, List.zip_cons_cons, List.foldl_cons, List.foldl_cons, hfirst]
        exact ih hrest xs _

/-- Steps bind the names of the targets of hops. -/
theorem Query.binds_stepsFrom (position : Nat) (hops : List Hop) :
    ((q.stepsFrom position hops).map TraversalStep.target).map NodePattern.bind =
      (hops.map Hop.target).map fun n => n.bind.map Ident.text := by
  induction hops generalizing position with
  | nil => rfl
  | cons hop hops ih =>
    rw [stepsFrom_cons, List.map_cons, List.map_cons, ih]
    rfl

/-- A row of the plan returns what the match binds. -/
theorem Query.nodes_columns {row : MatchRow} {xs : List NodeId}
    (h : row.nodes = bindAll (q.denote.patterns.zip xs)) :
    (q.denote.columns row).nodes = q.answer xs := by
  have hbinds : q.denote.patterns.map NodePattern.bind =
      (q.seed :: q.hops.map Hop.target).map fun n => n.bind.map Ident.text := by
    rw [TraversalPlan.patterns, List.map_cons, List.map_cons, steps_denote, binds_stepsFrom]
    rfl
  rw [answer, ← bindAll_zip hbinds, ← h]
  rfl

end

end Cypher

section

variable {o : Ontology} {steps : List TraversalStep}

/-- Entries that visited different nodes go on to visit different nodes. -/
theorem nodup_traceSteps {traced : List TracedEntry} (h : (traced.map Prod.fst).Nodup) :
    ((traceSteps o steps traced).map Prod.fst).Nodup := by
  induction steps generalizing traced with
  | nil => exact h
  | cons step steps ih =>
    refine @ih (traced.flatMap (traceStep o step)) ?_
    rw [List.map_flatMap, List.nodup_flatMap]
    constructor
    · intro t _
      rw [traceStep, List.map_map, List.Nodup, List.pairwise_map]
      refine pairwise_expandStep.imp fun hne heq => ?_
      obtain ⟨-, hlast⟩ := List.append_inj' heq rfl
      exact hne.1 (Prod.mk.inj (List.singleton_inj.mp hlast)).2
    · refine (List.pairwise_map.mp h).imp fun {t t'} hne => ?_
      rw [Function.onFun, List.disjoint_left]
      intro visits hv hv'
      obtain ⟨u, hu, rfl⟩ := List.mem_map.mp hv
      obtain ⟨u', hu', heq⟩ := List.mem_map.mp hv'
      obtain ⟨r, -, rfl⟩ := List.mem_map.mp hu
      obtain ⟨r', -, rfl⟩ := List.mem_map.mp hu'
      exact hne (List.append_inj' heq rfl).1.symm

/-- Every seed is a start once. -/
theorem nodup_traceSeeds (hkeyed : o.nodes.KeyedBy Node.id) (seed : NodePattern) :
    ((traceSeeds o seed).map Prod.fst).Nodup := by
  have hids : (o.nodes.vals.map Node.id).Nodup := by
    rw [hkeyed.map_key_vals]
    exact Std.ExtTreeMap.nodup_keys
  rw [traceSeeds, List.map_map, seedFrontier, List.map_map, List.Nodup, List.pairwise_map]
  refine ((List.pairwise_map.mp hids).sublist List.filter_sublist).imp fun hne heq => ?_
  exact hne (Prod.mk.inj (List.singleton_inj.mp heq)).2

end

namespace Cypher

/-- The rows of a query with a text are its matches, each once, cut off at its limit. -/
theorem rows_are_matches {q : Query} {text : String} (hv : q.InOrder) (hascii : q.Ascii)
    (h : lexis.Printed q.tokens text.toList) {o : Ontology}
    (hkeyed : o.nodes.KeyedBy AtomrOntology.Node.id) :
    ∃ plan, parse text = .ok plan ∧ ∃ found : List (List NodeId), found.Nodup ∧
      (∀ xs, xs ∈ found ↔ q.Matches o xs) ∧
      (traverse o plan).map MatchRow.nodes =
        (q.limit.elim found fun n => found.take n.toNat).map q.answer := by
  refine ⟨q.denote, by rw [parse_printed hv h, Query.map_misread_iff.mpr hascii], ?_⟩
  let traced := traceSteps o q.denote.steps (traceSeeds o q.denote.seed)
  have hvisits : ∀ t ∈ traced, ∃ xs, t.1 = q.denote.patterns.zip xs ∧ q.Matches o xs :=
    fun t ht => (q.isVisited_iff hkeyed).mp (exists_traced.mp ⟨t.2, ht⟩)
  have hnodes : ∀ xs, q.Matches o xs → (q.denote.patterns.zip xs).map Prod.snd = xs :=
    fun xs hxs => List.map_snd_zip hxs.length.ge
  refine ⟨traced.map fun t => t.1.map Prod.snd, ?_, ?_, ?_⟩
  · -- the visits of a match are told apart by their nodes
    have hnodup : (traced.map Prod.fst).Nodup := nodup_traceSteps (nodup_traceSeeds hkeyed _)
    rw [List.Nodup, List.pairwise_map]
    refine (List.pairwise_map.mp hnodup).imp_of_mem fun {t t'} ht ht' hne heq => ?_
    obtain ⟨xs, hxs, hmatch⟩ := hvisits t ht
    obtain ⟨xs', hxs', hmatch'⟩ := hvisits t' ht'
    rw [hxs, hxs', hnodes xs hmatch, hnodes xs' hmatch'] at heq
    exact hne (by rw [hxs, hxs', heq])
  · intro xs
    rw [List.mem_map]
    constructor
    · rintro ⟨t, ht, rfl⟩
      obtain ⟨xs, hxs, hmatch⟩ := hvisits t ht
      rwa [hxs, hnodes xs hmatch]
    · intro hmatch
      obtain ⟨r, hr⟩ := exists_traced.mpr ((q.isVisited_iff hkeyed).mpr ⟨xs, rfl, hmatch⟩)
      exact ⟨_, hr, hnodes xs hmatch⟩
  · have hrow : ∀ t ∈ traced, (q.denote.columns t.2.1).nodes = q.answer (t.1.map Prod.snd) := by
      intro t ht
      obtain ⟨xs, hxs, hmatch⟩ := hvisits t ht
      have hbound := @nodes_traced o q.denote t ht
      rw [hxs] at hbound
      rw [hxs, hnodes xs hmatch]
      exact q.nodes_columns hbound
    have hcut : (arrange q.denote (fun t : TracedEntry => t.2.1) traced) =
        q.limit.elim traced fun n => traced.take n.toNat := by
      unfold arrange
      cases hlimit : q.limit <;> simp [Query.denote, hlimit]
    have hrows : ∀ part : List TracedEntry, (∀ t ∈ part, t ∈ traced) →
        part.map (fun t => (q.denote.columns t.2.1).nodes) =
          (part.map fun t => t.1.map Prod.snd).map q.answer := by
      intro part hpart
      rw [List.map_map]
      exact List.map_congr_left fun t ht => hrow t (hpart t ht)
    have htraverse : (traverse o q.denote).map MatchRow.nodes =
        (q.limit.elim traced fun n => traced.take n.toNat).map fun t =>
          (q.denote.columns t.2.1).nodes := by
      rw [← hcut, ← map_tracedTraverse, List.map_map, tracedTraverse, List.map_map]
      rfl
    rw [htraverse]
    cases q.limit with
    | none => exact hrows traced fun _ ht => ht
    | some n =>
      simp only [Option.elim, ← List.map_take]
      exact hrows (traced.take n.toNat) fun _ ht => List.mem_of_mem_take ht

private theorem isIdent_oneLetter {c : Char} (h : Sparql.isIdentStart c = true) : IsIdent [c] :=
  ⟨h, by simp⟩

/-- A name of one letter. -/
private def oneLetter (c : Char) (h : Sparql.isIdentStart c = true) : Ident :=
  ⟨[c], isIdent_oneLetter h⟩

/-- `MATCH (a)-[:p*1..2]->(b) RETURN a, b`. -/
private def reachQuery : Query where
  seed := ⟨some (oneLetter 'a' (Eq.refl true)), [], none⟩
  hops := [⟨.right, some ⟨none, some (oneLetter 'p' (Eq.refl true)), some (.between 1 2), none⟩,
    ⟨some (oneLetter 'b' (Eq.refl true)), [], none⟩⟩]
  negation := none
  column := oneLetter 'a' (Eq.refl true)
  columns := [oneLetter 'b' (Eq.refl true)]
  limit := none

/-- What is reached in a triangle. -/
theorem rows_are_matches_triangle : ∃ plan, parse reachQuery.text = .ok plan ∧
    ∃ found : List (List NodeId), found.Nodup ∧
      (∀ xs, xs ∈ found ↔ reachQuery.Matches triangle xs) ∧
      (traverse triangle plan).map MatchRow.nodes = found.map reachQuery.answer := by
  have hkeyed : triangle.nodes.KeyedBy AtomrOntology.Node.id :=
    (((BTreeMap.KeyedBy.empty _).insert _).insert _).insert _
  refine rows_are_matches ?_ ?_ reachQuery.printed_text hkeyed
  · intro hop hhop b hb v hlen
    obtain rfl := List.mem_singleton.mp hhop
    obtain rfl := Option.some.inj hb
    obtain rfl := Option.some.inj hlen
    exact (by decide : (1 : UInt64) ≤ 2)
  · intro s hs
    obtain ⟨entries, hmem, -⟩ := hs
    simp [Query.maps, reachQuery, Node.maps, Hop.maps, EdgeBody.maps] at hmem

end Cypher

end AtomrOntology
