import AtomrOntology.Actor.Replay

/-!
# Does a batch settle like its nodes one by one?

The projector reconciles all nodes of a delta with the store as it was before the batch, and
then writes them. Of several nodes with one id only the last is left, so a policy that keeps the
first node, or that gathers what each adds, gives something else than node by node.
-/

namespace AtomrOntology

/-- Reconcile and write the nodes of a delta, each against what the ones before it left. -/
def reconcileOneByOne (conflict : ConflictResolution) (nodes : BTreeMap NodeId Node)
    (ns : List Node) : BTreeMap NodeId Node :=
  ns.foldl (fun m n => match conflict.reconcile m[n.id]? n with
    | some w => m.insert n.id w
    | none => m) nodes

variable {nodes : BTreeMap NodeId Node} {ns earlier : List Node} {last base : Node}

/-- A stored node with another one merged into it. -/
def Node.mergedWith (prev incoming : Node) : Node :=
  { prev with
    types := unionTypes prev.types incoming.types
    properties := prev.properties.insertMany incoming.properties.toList
    iri := incoming.iri.orElse fun _ => prev.iri }

/-- A node that has only an id. -/
def Node.bare (id : NodeId) : Node := ⟨id, none, [], ∅⟩

/-- The labels that some nodes add to others, one node after the other. -/
def newLabels (types : List String) : List Node → List String
  | [] => []
  | n :: ns =>
    let fresh := n.types.filter (· ∉ types)
    fresh ++ newLabels (types ++ fresh) ns

/-- Merging one node gives what merging others before it gives as well: whatever the others bring,
the last one brings too, or the stored node has it already. -/
structure Supersedes (base : Node) (earlier : List Node) (last : Node) : Prop where
  iri : last.iri = none → ∀ i, (earlier.filterMap Node.iri).getLast? = some i → base.iri = some i
  properties : ∀ k : String, last.properties[k]? = none → ∀ v,
    (earlier.filterMap fun n : Node => n.properties[k]?).getLast? = some v →
      base.properties[k]? = some v
  types : ∃ rest, last.types.filter (· ∉ base.types) = newLabels base.types earlier ++ rest ∧
    ∀ ty ∈ rest, ty ∉ newLabels base.types earlier

/-- Merging into a bare node gives the node. -/
theorem Node.mergedWith_bare {n : Node} {id : NodeId} (h : n.id = id) :
    (bare id).mergedWith n = n := by
  obtain ⟨_, iri, types, properties⟩ := n
  subst h
  have hproperties : (∅ : BTreeMap String PropertyValue).insertMany properties.toList =
      properties := by
    ext k : 1
    simp [BTreeMap.get_insertMany_toList]
  cases iri <;> simp [mergedWith, bare, unionTypes, hproperties]

/-- Merging keeps the id. -/
theorem id_foldl_mergedWith (base : Node) (ns : List Node) :
    (ns.foldl Node.mergedWith base).id = base.id := by
  induction ns generalizing base with
  | nil => rfl
  | cons n ns ih => exact ih _

/-- The last IRI is kept. -/
theorem iri_foldl_mergedWith (base : Node) (ns : List Node) :
    (ns.foldl Node.mergedWith base).iri = ((ns.filterMap Node.iri).getLast?).or base.iri := by
  induction ns generalizing base with
  | nil => rfl
  | cons n ns ih =>
    rw [List.foldl_cons, ih]
    cases hiri : n.iri with
    | none => simp [Node.mergedWith, hiri]
    | some i => simp [Node.mergedWith, hiri, List.getLast?_cons]

/-- The last value of a property is kept. -/
theorem properties_foldl_mergedWith (base : Node) (ns : List Node) (k : String) :
    (ns.foldl Node.mergedWith base).properties[k]? =
      ((ns.filterMap fun n => n.properties[k]?).getLast?).or base.properties[k]? := by
  induction ns generalizing base with
  | nil => rfl
  | cons n ns ih =>
    rw [List.foldl_cons, ih]
    cases hk : n.properties[k]? with
    | none => simp [Node.mergedWith, BTreeMap.get_insertMany_toList, hk]
    | some v => simp [Node.mergedWith, BTreeMap.get_insertMany_toList, hk, List.getLast?_cons]

/-- New labels are added in their order. -/
theorem types_foldl_mergedWith (base : Node) (ns : List Node) :
    (ns.foldl Node.mergedWith base).types = base.types ++ newLabels base.types ns := by
  induction ns generalizing base with
  | nil => simp [newLabels]
  | cons n ns ih =>
    rw [List.foldl_cons, ih]
    simp [Node.mergedWith, unionTypes, newLabels]

/-- A further node adds its labels that are new. -/
theorem newLabels_concat (types : List String) (ns : List Node) (n : Node) :
    newLabels types (ns ++ [n]) = newLabels types ns ++
      n.types.filter (· ∉ types ++ newLabels types ns) := by
  induction ns generalizing types with
  | nil => simp [newLabels]
  | cons m ns ih => simp [newLabels, ih]

/-- The last hit is that of the last one, if it has any. -/
theorem getLast?_filterMap_concat {α β : Type} (f : α → Option β) (xs : List α) (x : α) :
    ((xs ++ [x]).filterMap f).getLast? = (f x).or (xs.filterMap f).getLast? := by
  cases h : f x <;> simp [h]

/-- Choosing between two alternatives first makes no difference. -/
theorem or_eq_or_or_iff {α : Type} {first second third : Option α} :
    first.or third = (first.or second).or third ↔
      (first = none → ∀ x, second = some x → third = some x) := by
  cases first <;> cases second <;> simp

/-- A list begins with another one, and nothing else of it is in there. -/
theorem eq_append_filter_iff {α : Type} [DecidableEq α] {xs ys : List α} :
    xs = ys ++ xs.filter (· ∉ ys) ↔ ∃ rest, xs = ys ++ rest ∧ ∀ x ∈ rest, x ∉ ys := by
  constructor
  · intro h
    exact ⟨_, h, fun x hx => by simpa using List.of_mem_filter hx⟩
  · rintro ⟨rest, rfl, hrest⟩
    have hys : ys.filter (· ∉ ys) = [] := List.filter_eq_nil_iff.mpr fun x hx => by simp [hx]
    have hkept : rest.filter (· ∉ ys) = rest :=
      List.filter_eq_self.mpr fun x hx => by simpa using hrest x hx
    rw [List.filter_append, hys, hkept, List.nil_append]

/-- Exactly a node that supersedes the others leaves nothing of them out. -/
theorem mergedWith_eq_foldl_iff : base.mergedWith last = (earlier ++ [last]).foldl Node.mergedWith
    base ↔ Supersedes base earlier last := by
  have hfields : base.mergedWith last = (earlier ++ [last]).foldl Node.mergedWith base ↔
      (base.mergedWith last).iri = ((earlier ++ [last]).foldl Node.mergedWith base).iri ∧
      (base.mergedWith last).types = ((earlier ++ [last]).foldl Node.mergedWith base).types ∧
      (base.mergedWith last).properties =
        ((earlier ++ [last]).foldl Node.mergedWith base).properties := by
    constructor
    · intro h
      rw [← h]
      exact ⟨rfl, rfl, rfl⟩
    · rintro ⟨hiri, htypes, hproperties⟩
      have hid := id_foldl_mergedWith base (earlier ++ [last])
      generalize (earlier ++ [last]).foldl Node.mergedWith base = all at *
      cases all
      simp_all [Node.mergedWith]
  have hiri : (base.mergedWith last).iri =
      ((earlier ++ [last]).foldl Node.mergedWith base).iri ↔
      (last.iri = none → ∀ i, (earlier.filterMap Node.iri).getLast? = some i →
        base.iri = some i) := by
    rw [iri_foldl_mergedWith, getLast?_filterMap_concat, ← or_eq_or_or_iff, Node.mergedWith,
      Option.orElse_eq_or]
  have hproperties : (base.mergedWith last).properties =
      ((earlier ++ [last]).foldl Node.mergedWith base).properties ↔
      ∀ k : String, last.properties[k]? = none → ∀ v,
        (earlier.filterMap fun n : Node => n.properties[k]?).getLast? = some v →
          base.properties[k]? = some v := by
    rw [Std.ExtTreeMap.ext_getElem?_iff]
    refine forall_congr' fun k => ?_
    rw [properties_foldl_mergedWith, getLast?_filterMap_concat, ← or_eq_or_or_iff,
      Node.mergedWith, BTreeMap.get_insertMany_toList]
  have htypes : (base.mergedWith last).types =
      ((earlier ++ [last]).foldl Node.mergedWith base).types ↔
      ∃ rest, last.types.filter (· ∉ base.types) = newLabels base.types earlier ++ rest ∧
        ∀ ty ∈ rest, ty ∉ newLabels base.types earlier := by
    rw [types_foldl_mergedWith, newLabels_concat, ← eq_append_filter_iff, List.filter_filter]
    simp only [Node.mergedWith, unionTypes, List.append_cancel_left_eq, List.mem_append, not_or,
      Bool.decide_and, Bool.and_comm]
  rw [hfields, hiri, hproperties, htypes]
  constructor
  · intro h
    exact ⟨h.1, h.2.2, h.2.1⟩
  · intro h
    exact ⟨h.iri, h.types, h.properties⟩

/-- What a policy leaves under an id whose nodes are settled one after the other. -/
private def left (conflict : ConflictResolution) (existing : Option Node) (ns : List Node) :
    Option Node :=
  ns.foldl (fun e n => (conflict.reconcile e n).or e) existing

private theorem left_lastWriteWins (existing : Option Node) (earlier : List Node) (last : Node) :
    left .lastWriteWins existing (earlier ++ [last]) = some last := by
  rw [left, List.foldl_concat]
  rfl

private theorem left_skipExisting (existing : Option Node) (ns : List Node) :
    left .skipExisting existing ns = existing.or ns.head? := by
  induction ns generalizing existing with
  | nil => simp [left]
  | cons n ns ih =>
    refine (ih _).trans ?_
    cases existing <;> rfl

private theorem left_merge (base : Node) (ns : List Node) :
    left .merge (some base) ns = some (ns.foldl Node.mergedWith base) := by
  induction ns generalizing base with
  | nil => rfl
  | cons n ns ih => exact ih _

/-- Merging into nothing is merging into a node that has only an id. -/
private theorem reconcile_merge {existing : Option Node} {id : NodeId} {n : Node}
    (h : n.id = id) : ConflictResolution.merge.reconcile existing n =
      some ((existing.getD (.bare id)).mergedWith n) := by
  cases existing with
  | none => exact congrArg some (Node.mergedWith_bare h).symm
  | some prev => rfl

private theorem left_merge_getD (existing : Option Node) {id : NodeId} {ns : List Node}
    (h : ∀ n ∈ ns, n.id = id) (hns : ns ≠ []) : left .merge existing ns =
      some (ns.foldl Node.mergedWith (existing.getD (.bare id))) := by
  cases ns with
  | nil => exact absurd rfl hns
  | cons n ns =>
    have hfirst : left .merge existing (n :: ns) =
        left .merge (some ((existing.getD (.bare id)).mergedWith n)) ns := by
      rw [left, List.foldl_cons, reconcile_merge (h n List.mem_cons_self)]
      rfl
    rw [hfirst, left_merge]
    rfl

/-- When the nodes of a delta with one id make no difference but for the last of them. -/
def Settles (conflict : ConflictResolution) (nodes : BTreeMap NodeId Node) (ns : List Node) :
    Prop :=
  match conflict with
  | .lastWriteWins => True
  | .skipExisting => ∀ id earlier last, nodes[id]? = none →
      ns.filter (·.id = id) = earlier ++ [last] → (earlier ++ [last]).head? = some last
  | .merge => ∀ id earlier last, ns.filter (·.id = id) = earlier ++ [last] →
      Supersedes (nodes[id]?.getD (.bare id)) earlier last

/-- Node by node, each one settles on what the ones before it left. -/
theorem reconcileOneByOne_eq (conflict : ConflictResolution) (nodes : BTreeMap NodeId Node)
    (ns : List Node) : reconcileOneByOne conflict nodes ns =
      BTreeMap.settleEach conflict.reconcile Node.id nodes ns := by
  unfold reconcileOneByOne BTreeMap.settleEach
  congr 1
  funext m n
  cases conflict.reconcile m[n.id]? n <;> rfl

/-- A batch leaves the nodes that its delta leaves node by node, exactly when of the nodes with
one id the last one stands for all: the store has the id or they begin with the same node
(`SkipExisting`), or the last one supersedes the others (`Merge`). -/
theorem reconcileDelta_eq_oneByOne_iff (store : MemStore) (raw : OntologyDelta)
    (conflict : ConflictResolution) (activity : Activity)
    (hkeyed : conflict = .merge → store.ontology.nodes.KeyedBy Node.id) :
    (store.commitWithProvenance (reconcileDelta raw store conflict) activity).ontology.nodes =
        reconcileOneByOne conflict store.ontology.nodes raw.nodes ↔
      Settles conflict store.ontology.nodes raw.nodes := by
  have hsettle : (store.commitWithProvenance (reconcileDelta raw store conflict)
      activity).ontology.nodes =
        BTreeMap.settle conflict.reconcile Node.id store.ontology.nodes raw.nodes := by
    rw [MemStore.commitWithProvenance, Ontology.applyDelta_nodes, reconcileDelta_nodes]
    rfl
  have hmem : ∀ {id earlier last}, raw.nodes.filter (·.id = id) = earlier ++ [last] →
      ∀ n ∈ earlier ++ [last], n.id = id := by
    intro id earlier last hsplit n hn
    rw [← hsplit] at hn
    simpa using List.of_mem_filter hn
  rw [hsettle, reconcileOneByOne_eq]
  refine (BTreeMap.settle_eq_settleEach_iff conflict.repeats_reconcile
    (ConflictResolution.staysPut_reconcile hkeyed raw.nodes)).trans ?_
  cases conflict with
  | lastWriteWins =>
    refine iff_of_true (fun id earlier last _ => ?_) trivial
    exact (left_lastWriteWins _ earlier last).symm
  | skipExisting =>
    refine forall_congr' fun id => forall_congr' fun earlier => forall_congr' fun last => ?_
    have hleft := left_skipExisting store.ontology.nodes[id]? (earlier ++ [last])
    rw [left] at hleft
    rw [hleft]
    cases store.ontology.nodes[id]? with
    | none => simp [ConflictResolution.reconcile, eq_comm]
    | some prev => simp [ConflictResolution.reconcile]
  | merge =>
    refine forall_congr' fun id => forall_congr' fun earlier => forall_congr' fun last =>
      forall_congr' fun hsplit => ?_
    have hleft := left_merge_getD store.ontology.nodes[id]? (hmem hsplit) (by simp)
    rw [left] at hleft
    rw [hleft, reconcile_merge (hmem hsplit last (by simp)), Option.some_or, Option.some.injEq,
      mergedWith_eq_foldl_iff]

/-- A node with one label. -/
private def labelled (ty : String) : Node := ⟨.filled 1, none, [ty], ∅⟩

/-- A delta with the same id twice. -/
private def twice : OntologyDelta := ⟨[labelled "Actor", labelled "Cancelled"], [], []⟩

private def noted : Activity := .started "projection" (.filled 2) .epoch

/-- A store with the first of the two labels. -/
private def withActor : MemStore := ⟨Ontology.empty.upsertNode (labelled "Actor"), .empty⟩

private theorem settles_twice : Settles .merge withActor.ontology.nodes twice.nodes := by
  intro id earlier last hsplit
  by_cases hid : id = .filled 1
  · subst hid
    have hnodes : [labelled "Actor"] ++ [labelled "Cancelled"] = earlier ++ [last] := hsplit
    obtain ⟨rfl, hlast⟩ := List.append_inj' hnodes rfl
    obtain rfl := List.singleton_inj.mp hlast
    have hstored : withActor.ontology.nodes[(.filled 1 : NodeId)]? = some (labelled "Actor") := by
      simp [withActor, Ontology.upsertNode, labelled]
    rw [hstored]
    exact ⟨by simp [labelled], by simp [labelled], ["Cancelled"], by decide, by decide⟩
  · have hnone : twice.nodes.filter (·.id = id) = [] := by
      simp [twice, labelled, Ne.symm hid]
    rw [hnone] at hsplit
    simp at hsplit

/-- A stored node that has the first label is merged with both nodes, in a batch as well. -/
theorem reconcileDelta_eq_oneByOne_actor :
    (withActor.commitWithProvenance (reconcileDelta twice withActor .merge) noted).ontology.nodes =
      reconcileOneByOne .merge withActor.ontology.nodes twice.nodes :=
  (reconcileDelta_eq_oneByOne_iff withActor twice .merge noted fun _ =>
    (BTreeMap.KeyedBy.empty _).insert _).mpr settles_twice

private theorem labels_twice :
    ((MemStore.empty.commitWithProvenance (reconcileDelta twice .empty .merge)
        noted).ontology.nodes[(.filled 1 : NodeId)]?.map Node.types) = some ["Cancelled"] ∧
      ((reconcileOneByOne .merge MemStore.empty.ontology.nodes
        twice.nodes)[(.filled 1 : NodeId)]?.map Node.types) = some ["Actor", "Cancelled"] := by
  constructor
  · decide +kernel
  · decide +kernel

/-- In an empty store the batch loses the label that only the first node has. -/
theorem twice_loses_first :
    (MemStore.empty.commitWithProvenance (reconcileDelta twice .empty .merge)
        noted).ontology.nodes ≠
      reconcileOneByOne .merge MemStore.empty.ontology.nodes twice.nodes := by
  intro heq
  have hlabels := labels_twice.1
  rw [heq, labels_twice.2] at hlabels
  exact absurd hlabels (by decide)

end AtomrOntology
