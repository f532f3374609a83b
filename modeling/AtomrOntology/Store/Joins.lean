import AtomrOntology.Store.Paths

/-!
# Is a repeated name a join?

A traced execution keeps, beside each row, the patterns a row went through and the node visited
for each. A binding overwrites an earlier one of the same name, so a row names the node visited
last; it is consistent with every occurrence of its names exactly where all nodes visited
under one name are the same.
-/

namespace AtomrOntology

open Walk

variable {o : Ontology} {step : TraversalStep} {steps : List TraversalStep} {plan : TraversalPlan}
  {row : MatchRow} {x y : NodeId}

/-- A pattern of a plan and the node visited for it. -/
abbrev Visit := NodePattern × NodeId

/-- What was visited on the way to an entry of the frontier. -/
abbrev TracedEntry := List Visit × (MatchRow × NodeId)

/-- The seeds, each visited. -/
def traceSeeds (o : Ontology) (seed : NodePattern) : List TracedEntry :=
  (seedFrontier o seed).map fun r => ([(seed, r.2)], r)

/-- Expand an entry through a step. -/
def traceStep (o : Ontology) (step : TraversalStep) (t : TracedEntry) : List TracedEntry :=
  (expandStep o step t.2).map fun r => (t.1 ++ [(step.target, r.2)], r)

/-- Expand entries through some steps. -/
def traceSteps (o : Ontology) (steps : List TraversalStep) (traced : List TracedEntry) :
    List TracedEntry :=
  steps.foldl (fun traced step => traced.flatMap (traceStep o step)) traced

/-- Order, skip and limit what has rows. -/
def arrange {α : Type} (plan : TraversalPlan) (rowOf : α → MatchRow) (rows : List α) : List α :=
  let rows := if plan.order.isEmpty then rows
    else rows.mergeSort fun a b => (compareRows plan.order (rowOf a) (rowOf b)).isLE
  let rows := rows.drop plan.skip.toNat
  match plan.limit with
  | some n => rows.take n.toNat
  | none => rows

/-- The bindings that a plan returns. -/
def TraversalPlan.columns (plan : TraversalPlan) (row : MatchRow) : MatchRow :=
  if plan.returnColumns.isEmpty then row else row.project plan.returnColumns

/-- The rows of a plan, each with what was visited for it. -/
def tracedTraverse (o : Ontology) (plan : TraversalPlan) : List (List Visit × MatchRow) :=
  (arrange plan (fun t : TracedEntry => t.2.1)
    (traceSteps o plan.steps (traceSeeds o plan.seed))).map fun t => (t.1, plan.columns t.2.1)

/-- Without their traces, the traced rows are those of a run. -/
theorem map_traceSteps (traced : List TracedEntry) :
    (traceSteps o steps traced).map Prod.snd = runSteps o steps (traced.map Prod.snd) := by
  induction steps generalizing traced with
  | nil => rfl
  | cons step steps ih =>
    have hstep : (traced.flatMap (traceStep o step)).map Prod.snd =
        (traced.map Prod.snd).flatMap (expandStep o step) := by
      rw [List.map_flatMap, List.flatMap_map]
      refine List.flatMap_congr fun t _ => ?_
      rw [traceStep, List.map_map]
      exact List.map_id' _
    simpa [traceSteps, runSteps, hstep] using ih (traced.flatMap (traceStep o step))

/-- Rows made of other things can be arranged by these. -/
theorem applyOrdering_eq (plan : TraversalPlan) {α : Type} (rowOf : α → MatchRow) (rows : List α) :
    applyOrderingAndProjection (rows.map rowOf) plan =
      (arrange plan rowOf rows).map fun a => plan.columns (rowOf a) := by
  have hsorted : (if plan.order.isEmpty then rows.map rowOf
      else (rows.map rowOf).mergeSort fun a b => (compareRows plan.order a b).isLE) =
      (if plan.order.isEmpty then rows
        else rows.mergeSort fun a b => (compareRows plan.order (rowOf a) (rowOf b)).isLE).map
          rowOf := by
    by_cases horder : plan.order.isEmpty
    · simp only [horder, if_true]
    · simp only [horder, Bool.false_eq_true, if_false]
      exact (List.map_mergeSort (f := rowOf) fun _ _ _ _ => rfl).symm
  unfold applyOrderingAndProjection arrange TraversalPlan.columns
  rw [hsorted]
  generalize (if plan.order.isEmpty then rows else rows.mergeSort fun a b =>
    (compareRows plan.order (rowOf a) (rowOf b)).isLE) = sorted
  cases plan.limit with
  | none =>
    by_cases hcolumns : plan.returnColumns.isEmpty
    · simp [hcolumns, List.map_drop]
    · simp [hcolumns, List.map_drop, Function.comp_def]
  | some n =>
    by_cases hcolumns : plan.returnColumns.isEmpty
    · simp [hcolumns, List.map_drop, List.map_take]
    · simp [hcolumns, List.map_drop, List.map_take, Function.comp_def]

/-- Without the visits the traced execution is the execution. -/
theorem map_tracedTraverse (o : Ontology) (plan : TraversalPlan) :
    (tracedTraverse o plan).map Prod.snd = traverse o plan := by
  have hseeds : (traceSeeds o plan.seed).map Prod.snd = seedFrontier o plan.seed := by
    rw [traceSeeds, List.map_map]
    exact List.map_id' _
  rw [traverse, ← hseeds, ← map_traceSteps, List.map_map, applyOrdering_eq, tracedTraverse,
    List.map_map]
  rfl

/-- What is arranged was there before. -/
theorem mem_of_mem_arrange {α : Type} {rowOf : α → MatchRow} {rows : List α} {a : α}
    (h : a ∈ arrange plan rowOf rows) : a ∈ rows := by
  have hdrop : a ∈ (if plan.order.isEmpty then rows else rows.mergeSort fun a b =>
      (compareRows plan.order (rowOf a) (rowOf b)).isLE).drop plan.skip.toNat := by
    unfold arrange at h
    cases hlimit : plan.limit with
    | none => simpa [hlimit] using h
    | some n => exact List.mem_of_mem_take (by simpa [hlimit] using h)
  have hsorted := List.mem_of_mem_drop hdrop
  by_cases horder : plan.order.isEmpty
  · simpa [horder] using hsorted
  · simpa [horder] using hsorted

/-- Without a window nothing is lost. -/
theorem mem_arrange_of_mem {α : Type} {rowOf : α → MatchRow} {rows : List α} {a : α}
    (hskip : plan.skip = 0) (hlimit : plan.limit = none) (h : a ∈ rows) :
    a ∈ arrange plan rowOf rows := by
  by_cases horder : plan.order.isEmpty
  · simpa [arrange, hskip, hlimit, horder] using h
  · simpa [arrange, hskip, hlimit, horder] using h

/-- Nodes that some steps visit after a node: each is a target at a distance in the window. -/
def VisitsFrom (o : Ontology) : List TraversalStep → NodeId → List Visit → Prop
  | [], _, [] => True
  | step :: steps, x, (pattern, y) :: visits => pattern = step.target ∧ (IsTarget o step y ∧
      ∃ n, step.range.min.toNat ≤ n ∧ n ≤ step.range.max.toNat ∧
        AtDistance (Hop o step) x n y) ∧ VisitsFrom o steps y visits
  | _, _, _ => False

/-- Nodes that a plan visits: a stored seed, and a node for each step. -/
def IsVisited (o : Ontology) (plan : TraversalPlan) : List Visit → Prop
  | [] => False
  | (pattern, x) :: visits => pattern = plan.seed ∧
      (∃ node ∈ o.nodes.vals, matchNode node plan.seed ∧ node.id = x) ∧
      VisitsFrom o plan.steps x visits

/-- The traces of some steps are walks along them. -/
theorem exists_traceSteps {traced : List TracedEntry} {visits : List Visit} :
    (∃ r, (visits, r) ∈ traceSteps o steps traced) ↔
      ∃ t ∈ traced, ∃ rest, visits = t.1 ++ rest ∧ VisitsFrom o steps t.2.2 rest := by
  induction steps generalizing traced with
  | nil =>
    constructor
    · intro h
      obtain ⟨r, hr⟩ := h
      exact ⟨(visits, r), hr, [], (List.append_nil _).symm, trivial⟩
    · intro h
      obtain ⟨t, ht, rest, rfl, hrest⟩ := h
      cases rest with
      | nil => exact ⟨t.2, by simpa [traceSteps] using ht⟩
      | cons v rest => exact hrest.elim
  | cons step steps ih =>
    refine (@ih (traced.flatMap (traceStep o step))).trans ?_
    constructor
    · intro h
      obtain ⟨t', ht', rest, rfl, hrest⟩ := h
      obtain ⟨t, ht, ht'⟩ := List.mem_flatMap.mp ht'
      obtain ⟨r, hr, rfl⟩ := List.mem_map.mp ht'
      have hwindow := (@mem_expandStep o step t.2.1 t.2.2 r.2).mp ⟨r.1, hr⟩
      exact ⟨t, ht, (step.target, r.2) :: rest, by simp, rfl, hwindow, hrest⟩
    · intro h
      obtain ⟨t, ht, rest, rfl, hrest⟩ := h
      cases rest with
      | nil => exact hrest.elim
      | cons v rest =>
        obtain ⟨pattern, y⟩ := v
        obtain ⟨rfl, hwindow, hrest⟩ := hrest
        obtain ⟨row, hrow⟩ := (@mem_expandStep o step t.2.1 t.2.2 y).mpr hwindow
        refine ⟨(t.1 ++ [(step.target, y)], row, y), ?_, rest, by simp, hrest⟩
        exact List.mem_flatMap.mpr ⟨t, ht, List.mem_map.mpr ⟨(row, y), hrow, rfl⟩⟩

/-- The traces of a plan are the walks that it visits. -/
theorem exists_traced {visits : List Visit} :
    (∃ r, (visits, r) ∈ traceSteps o plan.steps (traceSeeds o plan.seed)) ↔
      IsVisited o plan visits := by
  rw [exists_traceSteps]
  constructor
  · intro h
    obtain ⟨t, ht, rest, rfl, hrest⟩ := h
    obtain ⟨r, hr, rfl⟩ := List.mem_map.mp ht
    obtain ⟨node, hnode, rfl⟩ := List.mem_map.mp hr
    obtain ⟨hstored, hmatch⟩ := List.mem_filter.mp hnode
    exact ⟨rfl, ⟨node, hstored, hmatch, rfl⟩, hrest⟩
  · intro h
    cases visits with
    | nil => exact h.elim
    | cons v rest =>
      obtain ⟨pattern, x⟩ := v
      obtain ⟨rfl, ⟨node, hstored, hmatch, rfl⟩, hrest⟩ := h
      refine ⟨_, List.mem_map.mpr ⟨_, List.mem_map.mpr ⟨node, ?_, rfl⟩, rfl⟩, rest, rfl, hrest⟩
      exact List.mem_filter.mpr ⟨hstored, hmatch⟩

/-- Bind the node of a visit under the name of its pattern, if it has one. -/
def bindVisit (nodes : BTreeMap String NodeId) (v : Visit) : BTreeMap String NodeId :=
  match v.1.bind with
  | some name => nodes.insert name v.2
  | none => nodes

/-- The bindings of some visits, later ones winning. -/
def bindAll (visits : List Visit) : BTreeMap String NodeId := visits.foldl bindVisit ∅

/-- A later binding of a name hides the earlier ones. -/
theorem bindAll_concat (visits : List Visit) (v : Visit) : bindAll (visits ++ [v]) =
    match v.1.bind with
    | some name => (bindAll visits).insert name v.2
    | none => bindAll visits := by
  rw [bindAll, List.foldl_append]
  rfl

/-- A name that all visits bind to one node is bound to it. -/
theorem get_bindAll_of_agree {visits : List Visit} {name : String}
    (hbound : ∃ v ∈ visits, v.1.bind = some name)
    (hagree : ∀ v ∈ visits, v.1.bind = some name → v.2 = x) : (bindAll visits)[name]? = some x := by
  induction visits using List.reverseRecOn with
  | nil =>
    obtain ⟨v, hv, -⟩ := hbound
    cases hv
  | append_singleton visits v ih =>
    have hrest : ∀ w ∈ visits, w.1.bind = some name → w.2 = x :=
      fun w hw => hagree w (List.mem_append_left _ hw)
    rw [bindAll_concat]
    by_cases hv : v.1.bind = some name
    · simp [hv, hagree v (by simp) hv]
    · have hbefore : ∃ w ∈ visits, w.1.bind = some name := by
        obtain ⟨w, hw, hname⟩ := hbound
        obtain hw | hw := List.mem_append.mp hw
        · exact ⟨w, hw, hname⟩
        · exact absurd (List.mem_singleton.mp hw ▸ hname) hv
      cases hother : v.1.bind with
      | none => exact ih hbefore hrest
      | some other =>
        have hne : other ≠ name := fun heq => hv (heq ▸ hother)
        simp only [BTreeMap.get_insert, hne, if_false]
        exact ih hbefore hrest

/-- A step binds the name of its target. -/
theorem nodes_bind (last : Option EdgeId) : (step.bind row last y).nodes =
    match step.target.bind with
    | some name => row.nodes.insert name y
    | none => row.nodes := by
  unfold TraversalStep.bind
  cases step.edge.bind <;> cases last <;> cases step.target.bind <;> rfl

/-- A step binds the node it visits. -/
theorem nodes_traceStep {t t' : TracedEntry} (ht : t.2.1.nodes = bindAll t.1)
    (h : t' ∈ traceStep o step t) : t'.2.1.nodes = bindAll t'.1 := by
  obtain ⟨r, hr, rfl⟩ := List.mem_map.mp h
  obtain ⟨es, -, -, hbind⟩ := (isExpansion_expandStep o step t.2.1 t.2.2).bound r hr
  rw [hbind, nodes_bind, bindAll_concat, ht]

/-- Steps bind the names along their traces. -/
theorem nodes_traceSteps {traced : List TracedEntry}
    (h : ∀ t ∈ traced, t.2.1.nodes = bindAll t.1) :
    ∀ t ∈ traceSteps o steps traced, t.2.1.nodes = bindAll t.1 := by
  induction steps generalizing traced with
  | nil => exact h
  | cons step steps ih =>
    refine @ih (traced.flatMap (traceStep o step)) fun t' ht' => ?_
    obtain ⟨t, ht, ht'⟩ := List.mem_flatMap.mp ht'
    exact nodes_traceStep (h t ht) ht'

/-- Every row binds the names along its trace. -/
theorem nodes_traced : ∀ t ∈ traceSteps o plan.steps (traceSeeds o plan.seed),
    t.2.1.nodes = bindAll t.1 := by
  refine nodes_traceSteps fun t ht => ?_
  obtain ⟨r, hr, rfl⟩ := List.mem_map.mp ht
  obtain ⟨node, -, rfl⟩ := List.mem_map.mp hr
  simp only [bindAll, List.foldl_cons, List.foldl_nil, bindVisit]
  cases plan.seed.bind <;> rfl

/-- The names that a plan returns. -/
def TraversalPlan.Returns (plan : TraversalPlan) (name : String) : Prop :=
  plan.returnColumns = [] ∨ name ∈ plan.returnColumns

/-- A pattern matches a node that is stored with an id or under it. -/
def Satisfies (o : Ontology) (v : Visit) : Prop :=
  ∃ node ∈ o.nodes.vals, matchNode node v.1 ∧ (node.id = v.2 ∨ o.nodes[v.2]? = some node)

/-- Every name of a returned row is bound to the node visited at each of its occurrences, which
the pattern of the occurrence matches. -/
def Consistent (o : Ontology) (plan : TraversalPlan) : Prop :=
  ∀ t ∈ tracedTraverse o plan, ∀ v ∈ t.1, ∀ name, v.1.bind = some name → plan.Returns name →
    t.2.nodes[name]? = some v.2 ∧ Satisfies o v

/-- Whatever a plan visits, the nodes visited under a returned name are the same. -/
def NamesAgree (o : Ontology) (plan : TraversalPlan) : Prop :=
  ∀ visits, IsVisited o plan visits → ∀ v ∈ visits, ∀ w ∈ visits, ∀ name,
    v.1.bind = some name → w.1.bind = some name → plan.Returns name → v.2 = w.2

/-- A name that is returned keeps its binding. -/
theorem TraversalPlan.nodes_columns {name : String} (h : plan.Returns name) (row : MatchRow) :
    (plan.columns row).nodes[name]? = row.nodes[name]? := by
  unfold columns
  by_cases hcolumns : plan.returnColumns.isEmpty
  · rw [if_pos hcolumns]
  · rw [if_neg hcolumns]
    obtain hnil | hmem := h
    · simp [hnil] at hcolumns
    · simp only [MatchRow.project, Std.ExtTreeMap.getElem?_filter', hmem, decide_true]
      cases row.nodes[name]? <;> rfl

/-- The nodes on a walk match the patterns of the steps. -/
theorem satisfies_of_visitsFrom {visits : List Visit} (h : VisitsFrom o steps x visits) :
    ∀ v ∈ visits, Satisfies o v := by
  induction steps generalizing x visits with
  | nil =>
    cases visits with
    | nil => exact fun v hv => absurd hv List.not_mem_nil
    | cons v visits => exact h.elim
  | cons step steps ih =>
    cases visits with
    | nil => exact h.elim
    | cons v visits =>
      obtain ⟨hpattern, ⟨⟨node, hnode, hmatch⟩, -⟩, hrest⟩ := h
      intro w hw
      obtain rfl | hw := List.mem_cons.mp hw
      · exact ⟨node, BTreeMap.mem_vals.mpr ⟨_, hnode⟩, hpattern ▸ hmatch, Or.inr hnode⟩
      · exact ih hrest w hw

/-- The nodes on a walk of a plan match its patterns. -/
theorem satisfies_of_isVisited {visits : List Visit} (h : IsVisited o plan visits) :
    ∀ v ∈ visits, Satisfies o v := by
  cases visits with
  | nil => exact h.elim
  | cons v visits =>
    obtain ⟨hpattern, ⟨node, hnode, hmatch, hid⟩, hrest⟩ := h
    intro w hw
    obtain rfl | hw := List.mem_cons.mp hw
    · exact ⟨node, hnode, hpattern ▸ hmatch, Or.inl hid⟩
    · exact satisfies_of_visitsFrom hrest w hw

/-- Rows are consistent if a name is bound in one way. -/
theorem consistent_of_agree (h : NamesAgree o plan) : Consistent o plan := by
  intro t ht v hv name hname hreturns
  obtain ⟨entry, hentry, rfl⟩ := List.mem_map.mp ht
  have htraced := mem_of_mem_arrange hentry
  have hvisited := exists_traced.mp ⟨entry.2, htraced⟩
  refine ⟨?_, satisfies_of_isVisited hvisited v hv⟩
  rw [plan.nodes_columns hreturns, nodes_traced entry htraced]
  exact get_bindAll_of_agree ⟨v, hv, hname⟩
    fun w hw hname' => h entry.1 hvisited w hw v hv name hname' hname hreturns

/-- A row that is returned and consistent was at one node for each name. -/
theorem agree_of_consistent (h : Consistent o { plan with skip := 0, limit := none }) :
    NamesAgree o plan := by
  intro visits hvisited v hv w hw name hname hname' hreturns
  obtain ⟨r, hr⟩ := exists_traced.mpr hvisited
  have hmem : (visits, ({ plan with skip := 0, limit := none } : TraversalPlan).columns r.1) ∈
      tracedTraverse o { plan with skip := 0, limit := none } :=
    List.mem_map.mpr ⟨(visits, r), mem_arrange_of_mem rfl rfl hr, rfl⟩
  have hfirst := (h _ hmem v hv name hname hreturns).1
  have hsecond := (h _ hmem w hw name hname' hreturns).1
  exact Option.some.inj (hfirst.symm.trans hsecond)

/-- The traced rows are the rows of the plan. They are consistent where the nodes visited under
one name agree, and nowhere else unless inconsistent rows are skipped or cut off. -/
theorem consistent_iff_agree (o : Ontology) (plan : TraversalPlan) :
    (tracedTraverse o plan).map Prod.snd = traverse o plan ∧
      (NamesAgree o plan → Consistent o plan) ∧
      (Consistent o { plan with skip := 0, limit := none } → NamesAgree o plan) :=
  ⟨map_tracedTraverse o plan, consistent_of_agree, agree_of_consistent⟩

/-- `(a)-[]->(a)`. -/
private def loopPlan : TraversalPlan :=
  { TraversalPlan.start { NodePattern.any with bind := some "a" } with
    steps := [⟨.any, { NodePattern.any with bind := some "a" }, true⟩] }

/-- An edge between two nodes is returned as a loop at its end. -/
theorem triangle_has_no_loop : ¬Consistent triangle loopPlan := by
  intro h
  have hnodes : ∀ i : UInt8, triangle.nodes[(.filled i : NodeId)]? = some ⟨.filled i, none, [], ∅⟩ →
      IsTarget triangle ⟨.any, { NodePattern.any with bind := some "a" }, true⟩ (.filled i) :=
    fun i hi => ⟨_, hi, by simp [matchNode, matchAny, NodePattern.any]⟩
  have hfirst : triangle.nodes[(.filled 1 : NodeId)]? = some ⟨.filled 1, none, [], ∅⟩ := by
    simp only [triangle, Ontology.upsertEdge, Ontology.upsertNode, BTreeMap.get_insert]
    rfl
  have hsecond : triangle.nodes[(.filled 2 : NodeId)]? = some ⟨.filled 2, none, [], ∅⟩ := by
    simp only [triangle, Ontology.upsertEdge, Ontology.upsertNode, BTreeMap.get_insert]
    rfl
  have hedge : triangle.edges[(.filled 1 : EdgeId)]? = some (arrow 1 1 2) := by
    simp only [triangle, Ontology.upsertEdge, BTreeMap.get_insert, arrow, Id.filled_inj]
    rfl
  have hne : (.filled 2 : NodeId) ≠ .filled 1 :=
    fun heq => absurd (Id.filled_inj.mp heq) (by decide)
  have hvisited : IsVisited triangle loopPlan
      [(loopPlan.seed, .filled 1), (⟨some "a", [], ∅, none, [], []⟩, .filled 2)] := by
    refine ⟨rfl, ⟨_, BTreeMap.mem_vals.mpr ⟨_, hfirst⟩, ?_, rfl⟩, rfl, ⟨hnodes 2 hsecond, 1, ?_⟩,
      trivial⟩
    · simp [matchNode, matchAny, loopPlan, TraversalPlan.start, NodePattern.any]
    · refine ⟨le_rfl, le_rfl, Steps.refl.snoc ?_, fun m hm hsteps => ?_⟩
      · exact ⟨arrow 1 1 2, BTreeMap.mem_vals.mpr ⟨_, hedge⟩, by simp [matchEdge, EdgePattern.any],
          rfl, rfl⟩
      · obtain rfl : m = 0 := by omega
        exact hne (steps_zero.mp hsteps)
  have hagree : NamesAgree triangle loopPlan := agree_of_consistent h
  exact hne (hagree _ hvisited _ (List.mem_cons_of_mem _ List.mem_cons_self) _ List.mem_cons_self
    "a" rfl rfl (Or.inl rfl))

end AtomrOntology
