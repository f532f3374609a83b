import AtomrOntology.Logic.Walk
import AtomrOntology.Store.Mem

/-!
# Where a step leads

The layers of the breadth-first expansion are the nodes at each distance from the start,
so a step emits the matching nodes whose distance lies in its window. A node that is
also reached by a walk shorter than the window is missed.
-/

namespace AtomrOntology

open Walk

variable {o : Ontology} {step : TraversalStep}

/-- One hop of a step: a stored matching edge in its direction. -/
def Hop (o : Ontology) (step : TraversalStep) (x y : NodeId) : Prop :=
  ∃ e ∈ o.edges.vals, matchEdge e step.edge ∧ step.near e = x ∧ step.far e = y

/-- A stored node that matches the target of a step. -/
def IsTarget (o : Ontology) (step : TraversalStep) (y : NodeId) : Prop :=
  ∃ node, o.nodes[y]? = some node ∧ matchNode node step.target

/-- The nodes of a layer. -/
def Reached (layer : List LayerEntry) (y : NodeId) : Prop := ∃ entry ∈ layer, entry.2.1 = y

/-- A candidate that does not match or leads to a visited node is skipped. -/
theorem followCandidates_skip {row : MatchRow} {e : Edge} {es : List Edge}
    {visited : BTreeSet NodeId} (h : matchEdge e step.edge → step.far e ∈ visited) :
    followCandidates step row (e :: es) visited = followCandidates step row es visited := by
  rw [followCandidates]
  by_cases hmatch : matchEdge e step.edge
  · rw [if_neg (by simp [hmatch]), if_pos (Std.ExtTreeSet.contains_iff_mem.mpr (h hmatch))]
  · rw [if_pos (by simp [hmatch])]

/-- A candidate that leads to a new node is taken. -/
theorem followCandidates_take {row : MatchRow} {e : Edge} {es : List Edge}
    {visited : BTreeSet NodeId} (hmatch : matchEdge e step.edge) (h : step.far e ∉ visited) :
    followCandidates step row (e :: es) visited =
      ((row, step.far e, some e.id) ::
          (followCandidates step row es (visited.insert (step.far e))).1,
        (followCandidates step row es (visited.insert (step.far e))).2) := by
  have hnew : ¬visited.contains (step.far e) = true := by
    rwa [Std.ExtTreeSet.contains_iff_mem]
  rw [followCandidates, if_neg (by simp [hmatch]), if_neg hnew]

/-- Candidates lead to the new nodes that they match, and these are visited then. -/
theorem followCandidates_spec (row : MatchRow) (es : List Edge)
    (visited : BTreeSet NodeId) (y : NodeId) :
    (Reached (followCandidates step row es visited).1 y ↔
      (∃ e ∈ es, matchEdge e step.edge ∧ step.far e = y) ∧ y ∉ visited) ∧
    (y ∈ (followCandidates step row es visited).2 ↔
      (∃ e ∈ es, matchEdge e step.edge ∧ step.far e = y) ∨ y ∈ visited) := by
  induction es generalizing visited with
  | nil => simp [followCandidates, Reached]
  | cons e es ih =>
    by_cases hskip : matchEdge e step.edge → step.far e ∈ visited
    · rw [followCandidates_skip hskip, (ih visited).1, (ih visited).2]
      simp only [List.mem_cons, exists_eq_or_imp]
      grind
    · obtain ⟨hmatch, hnew⟩ := Classical.not_imp.mp hskip
      rw [followCandidates_take hmatch hnew]
      have hrest := ih (visited.insert (step.far e))
      simp only [BTreeSet.mem_insert] at hrest
      simp only [Reached, List.mem_cons, exists_eq_or_imp, hmatch, true_and] at hrest ⊢
      rw [hrest.1, hrest.2]
      grind

/-- The candidates of a node are its stored edges. -/
theorem mem_candidates {cur : NodeId} {e : Edge} :
    e ∈ candidates o step cur ↔ e ∈ o.edges.vals ∧ step.near e = cur := by
  simp [candidates]

private theorem followed_iff_hop {cur y : NodeId} :
    (∃ e ∈ candidates o step cur, matchEdge e step.edge ∧ step.far e = y) ↔ Hop o step cur y := by
  constructor
  · intro h
    obtain ⟨e, he, hmatch, hfar⟩ := h
    obtain ⟨hstored, hnear⟩ := mem_candidates.mp he
    exact ⟨e, hstored, hmatch, hnear, hfar⟩
  · intro h
    obtain ⟨e, hstored, hmatch, hnear, hfar⟩ := h
    exact ⟨e, mem_candidates.mpr ⟨hstored, hnear⟩, hmatch, hfar⟩

private theorem reached_cons {entry : LayerEntry} {layer : List LayerEntry} {x : NodeId} :
    Reached (entry :: layer) x ↔ entry.2.1 = x ∨ Reached layer x := by
  simp [Reached]

private theorem reached_append {layer layer' : List LayerEntry} {x : NodeId} :
    Reached (layer ++ layer') x ↔ Reached layer x ∨ Reached layer' x := by
  simp [Reached, or_and_right, exists_or]

/-- A layer is followed entry by entry. -/
theorem nextLayer_cons (entry : LayerEntry) (layer : List LayerEntry) (visited : BTreeSet NodeId) :
    nextLayer o step (entry :: layer) visited =
      let here := followCandidates step entry.1 (candidates o step entry.2.1) visited
      (here.1 ++ (nextLayer o step layer here.2).1, (nextLayer o step layer here.2).2) := rfl

/-- The next layer holds the successors of a layer that were not visited, and visits them. -/
theorem nextLayer_spec (layer : List LayerEntry) (visited : BTreeSet NodeId) (y : NodeId) :
    (Reached (nextLayer o step layer visited).1 y ↔
      (∃ x, Reached layer x ∧ Hop o step x y) ∧ y ∉ visited) ∧
    (y ∈ (nextLayer o step layer visited).2 ↔
      (∃ x, Reached layer x ∧ Hop o step x y) ∨ y ∈ visited) := by
  induction layer generalizing visited with
  | nil => simp [nextLayer, Reached]
  | cons entry layer ih =>
    have hhere := @followCandidates_spec step entry.1 (candidates o step entry.2.1) visited y
    rw [followed_iff_hop] at hhere
    have hthere := ih (followCandidates step entry.1 (candidates o step entry.2.1) visited).2
    have hlayer : (∃ x, Reached (entry :: layer) x ∧ Hop o step x y) ↔
        Hop o step entry.2.1 y ∨ ∃ x, Reached layer x ∧ Hop o step x y := by
      simp only [reached_cons, or_and_right, exists_or, exists_eq_left']
    rw [nextLayer_cons]
    dsimp only
    rw [reached_append, hlayer, hhere.1, hthere.1, hthere.2, hhere.2]
    grind

private theorem isTarget_of_emitEntry {entry : LayerEntry} {row : MatchRow} {y : NodeId}
    (h : emitEntry o step entry = some (row, y)) : entry.2.1 = y ∧ IsTarget o step y := by
  obtain ⟨row', cur, last⟩ := entry
  unfold emitEntry at h
  cases hnode : o.nodes[cur]? with
  | none => simp [hnode] at h
  | some node =>
    by_cases hmatch : matchNode node step.target
    · simp only [hnode, hmatch, Bool.not_true, Bool.false_eq_true, if_false, Option.some.injEq,
        Prod.mk.injEq] at h
      have hcur : cur = y := h.2
      subst hcur
      exact ⟨rfl, node, hnode, hmatch⟩
    · simp [hnode, hmatch] at h

private theorem exists_emitEntry {row : MatchRow} {y : NodeId} {last : Option EdgeId}
    (h : IsTarget o step y) : ∃ row', emitEntry o step (row, y, last) = some (row', y) := by
  obtain ⟨node, hnode, hmatch⟩ := h
  unfold emitEntry
  simp [hnode, hmatch]

private theorem mem_emitted {layer : List LayerEntry} {y : NodeId} :
    (∃ row, (row, y) ∈ layer.filterMap (emitEntry o step)) ↔
      Reached layer y ∧ IsTarget o step y := by
  constructor
  · intro h
    obtain ⟨row, hrow⟩ := h
    obtain ⟨entry, hentry, hemit⟩ := List.mem_filterMap.mp hrow
    obtain ⟨hy, htarget⟩ := isTarget_of_emitEntry hemit
    exact ⟨⟨entry, hentry, hy⟩, htarget⟩
  · intro h
    obtain ⟨⟨⟨row, cur, last⟩, hentry, hy⟩, htarget⟩ := h
    cases hy
    obtain ⟨row', hemit⟩ := @exists_emitEntry o step row cur last htarget
    exact ⟨row', List.mem_filterMap.mpr ⟨_, hentry, hemit⟩⟩

/-- A layer emits its targets once the depth is in the window. -/
private theorem mem_emittedAt {layer : List LayerEntry} {depth : Nat} {y : NodeId} :
    (∃ row, (row, y) ∈ (if step.range.min.toNat ≤ depth
      then layer.filterMap (emitEntry o step) else [])) ↔
      step.range.min.toNat ≤ depth ∧ Reached layer y ∧ IsTarget o step y := by
  by_cases hmin : step.range.min.toNat ≤ depth
  · rw [if_pos hmin, mem_emitted]
    simp [hmin]
  · rw [if_neg hmin]
    simp [hmin]

/-- The layers from a depth on emit the targets at the distances that are left. -/
private theorem mem_expandLayers (start : NodeId) (left depth : Nat) (visited : BTreeSet NodeId)
    (layer : List LayerEntry)
    (hlayer : ∀ x, Reached layer x ↔ AtDistance (Hop o step) start depth x)
    (hvisited : ∀ x, x ∈ visited ↔ Within (Hop o step) start depth x) (y : NodeId) :
    (∃ row, (row, y) ∈ expandLayers o step left depth visited layer) ↔
      IsTarget o step y ∧ ∃ n, step.range.min.toNat ≤ n ∧ depth ≤ n ∧ n ≤ depth + left ∧
        AtDistance (Hop o step) start n y := by
  induction left generalizing depth visited layer with
  | zero =>
    have hhere := @mem_emittedAt o step layer depth y
    rw [hlayer] at hhere
    rw [expandLayers]
    refine hhere.trans ?_
    constructor
    · intro h
      obtain ⟨hmin, hd, htarget⟩ := h
      exact ⟨htarget, depth, hmin, le_rfl, le_rfl, hd⟩
    · intro h
      obtain ⟨htarget, n, hmin, hle, hge, hd⟩ := h
      obtain rfl : n = depth := by omega
      exact ⟨hmin, hd, htarget⟩
  | succ left ih =>
    have hhere := @mem_emittedAt o step layer depth y
    rw [hlayer] at hhere
    have hnextLayer : ∀ x, Reached (nextLayer o step layer visited).1 x ↔
        AtDistance (Hop o step) start (depth + 1) x := by
      intro x
      rw [(nextLayer_spec layer visited x).1, atDistance_succ, hvisited]
      simp only [hlayer]
    have hnextVisited : ∀ x, x ∈ (nextLayer o step layer visited).2 ↔
        Within (Hop o step) start (depth + 1) x := by
      intro x
      rw [(nextLayer_spec layer visited x).2, within_succ, atDistance_succ, hvisited]
      simp only [hlayer]
      by_cases hw : Within (Hop o step) start depth x
      · simp [hw]
      · simp [hw]
    rw [expandLayers]
    by_cases hempty : (nextLayer o step layer visited).1.isEmpty
    · -- An empty layer ends the search, and no node is further away.
      have hnone : ∀ x, ¬AtDistance (Hop o step) start (depth + 1) x := by
        intro x hx
        obtain ⟨entry, hentry, -⟩ := (hnextLayer x).mpr hx
        rw [List.isEmpty_iff.mp hempty] at hentry
        exact absurd hentry List.not_mem_nil
      simp only [hempty, if_true]
      rw [hhere]
      constructor
      · intro h
        obtain ⟨hmin, hd, htarget⟩ := h
        exact ⟨htarget, depth, hmin, le_rfl, by omega, hd⟩
      · intro h
        obtain ⟨htarget, n, hmin, hle, hge, hd⟩ := h
        by_cases hn : n = depth
        · subst hn
          exact ⟨hmin, hd, htarget⟩
        · exact absurd hd (not_atDistance_of_le hnone (by omega) y)
    · have hrest := ih (depth + 1) _ _ hnextLayer hnextVisited
      simp only [hempty, Bool.false_eq_true, if_false, List.mem_append, exists_or]
      refine (or_congr hhere hrest).trans ?_
      constructor
      · intro h
        obtain ⟨hmin, hd, htarget⟩ | ⟨htarget, n, hmin, hle, hge, hd⟩ := h
        · exact ⟨htarget, depth, hmin, le_rfl, by omega, hd⟩
        · exact ⟨htarget, n, hmin, by omega, by omega, hd⟩
      · intro h
        obtain ⟨htarget, n, hmin, hle, hge, hd⟩ := h
        by_cases hn : n = depth
        · subst hn
          exact Or.inl ⟨hmin, hd, htarget⟩
        · exact Or.inr ⟨htarget, n, hmin, by omega, by omega, hd⟩

/-- A step emits the targets whose distance lies in its window. -/
theorem mem_expandStep {row : MatchRow} {start y : NodeId} :
    (∃ row', (row', y) ∈ expandStep o step (row, start)) ↔
      IsTarget o step y ∧ ∃ n, step.range.min.toNat ≤ n ∧ n ≤ step.range.max.toNat ∧
        AtDistance (Hop o step) start n y := by
  unfold expandStep
  rw [mem_expandLayers start]
  · simp
  · intro x
    simp [Reached, eq_comm]
  · intro x
    rw [BTreeSet.mem_insert]
    simp

/-- The end nodes that a step emits from a start. -/
def endNodes (o : Ontology) (step : TraversalStep) (row : MatchRow) (start : NodeId) : Set NodeId :=
  {y | ∃ row', (row', y) ∈ expandStep o step (row, start)}

/-- The targets that some walk in the window of a step reaches. -/
def windowNodes (o : Ontology) (step : TraversalStep) (start : NodeId) : Set NodeId :=
  {y | IsTarget o step y ∧ ∃ n, step.range.min.toNat ≤ n ∧ n ≤ step.range.max.toNat ∧
    Steps (Hop o step) start n y}

/-- No target in the window is also reached by a walk that is too short. -/
def NoShortcut (o : Ontology) (step : TraversalStep) (start : NodeId) : Prop :=
  ∀ y ∈ windowNodes o step start, ∀ m < step.range.min.toNat, ¬Steps (Hop o step) start m y

/-- A repeated step reaches the nodes of its window exactly where no shortcut leads to one. -/
theorem endNodes_eq_windowNodes_iff (o : Ontology) (step : TraversalStep) (row : MatchRow)
    (start : NodeId) :
    endNodes o step row start = windowNodes o step start ↔ NoShortcut o step start := by
  constructor
  · intro heq y hy m hm hshort
    have hemitted : y ∈ endNodes o step row start := heq ▸ hy
    obtain ⟨-, n, hmin, -, hd⟩ := mem_expandStep.mp hemitted
    exact hd.shortest m (by omega) hshort
  · intro hno
    ext y
    constructor
    · intro hy
      obtain ⟨htarget, n, hmin, hmax, hd⟩ := mem_expandStep.mp hy
      exact ⟨htarget, n, hmin, hmax, hd.steps⟩
    · intro hy
      have hwindow := (exists_steps_iff_of_no_shortcut (hno y hy)).mp hy.2
      exact mem_expandStep.mpr ⟨hy.1, hwindow⟩

/-- An edge between two of the nodes of the triangle. -/
def arrow (id source target : UInt8) : Edge :=
  ⟨.filled id, "p", .filled source, .filled target, ∅⟩

/-- `1 → 2 → 3`, and the shortcut `1 → 3`. -/
def triangle : Ontology :=
  ((((((Ontology.empty.upsertNode ⟨.filled 1, none, [], ∅⟩).upsertNode
    ⟨.filled 2, none, [], ∅⟩).upsertNode ⟨.filled 3, none, [], ∅⟩).upsertEdge
    (arrow 1 1 2)).upsertEdge (arrow 2 2 3)).upsertEdge (arrow 3 1 3))

/-- Exactly two hops. -/
private def twoHops : TraversalStep :=
  ⟨{ EdgePattern.any with «repeat» := some ⟨2, 2⟩ }, .any, true⟩

private theorem nothing_emitted : (expandStep triangle twoHops (.new, .filled 1)).isEmpty := by
  decide +kernel

private theorem hop_triangle {i a b : UInt8} (h : triangle.edges[(Id.filled i : EdgeId)]? =
    some (arrow i a b)) : Hop triangle twoHops (.filled a) (.filled b) :=
  ⟨arrow i a b,
    BTreeMap.mem_vals.mpr ⟨_, h⟩, by simp [matchEdge, twoHops, EdgePattern.any], rfl, rfl⟩

/-- Two hops lead from 1 to 3, yet the step reaches nothing. -/
theorem triangle_misses_a_walk :
    endNodes triangle twoHops .new (.filled 1) ≠ windowNodes triangle twoHops (.filled 1) := by
  have h12 : Hop triangle twoHops (.filled 1) (.filled 2) := by
    apply hop_triangle (i := 1)
    simp only [triangle, Ontology.upsertEdge, BTreeMap.get_insert, arrow, Id.filled_inj]
    rfl
  have h23 : Hop triangle twoHops (.filled 2) (.filled 3) := by
    apply hop_triangle (i := 2)
    simp only [triangle, Ontology.upsertEdge, BTreeMap.get_insert, arrow, Id.filled_inj]
    rfl
  have htarget : IsTarget triangle twoHops (.filled 3) := by
    refine ⟨⟨.filled 3, none, [], ∅⟩, ?_, by simp [matchNode, matchAny, twoHops, NodePattern.any]⟩
    simp only [triangle, Ontology.upsertEdge, Ontology.upsertNode, BTreeMap.get_insert]
    rfl
  have hwindow : Id.filled 3 ∈ windowNodes triangle twoHops (.filled 1) :=
    ⟨htarget, 2, le_rfl, le_rfl, (Steps.refl.snoc h12).snoc h23⟩
  intro heq
  obtain ⟨row, hrow⟩ := heq ▸ hwindow
  rw [List.isEmpty_iff.mp nothing_emitted] at hrow
  exact absurd hrow List.not_mem_nil

end AtomrOntology
