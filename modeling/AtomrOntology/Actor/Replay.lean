import AtomrOntology.Actor.Hierarchical
import AtomrOntology.Core.Settle

/-!
# Does a second replay change anything?

A replay sends the whole content of a source as one batch. Its projection does not look at the
store, and each policy repeats itself on its own result, so projecting an unchanged source again
leaves the ontology as it is. Merging keeps the id of the stored node: where a node is stored
under the id of another, the merged nodes land under each other's ids.
-/

namespace AtomrOntology

/-- Labels that were united already add nothing. -/
theorem unionTypes_unionTypes (types incoming : List String) :
    unionTypes (unionTypes types incoming) incoming = unionTypes types incoming := by
  have hnone : incoming.filter (· ∉ unionTypes types incoming) = [] := by
    refine List.filter_eq_nil_iff.mpr fun ty hty => ?_
    by_cases h : ty ∈ types
    · simp [unionTypes, h]
    · simp [unionTypes, h, hty]
  rw [unionTypes, hnone, List.append_nil]

/-- Labels add nothing to themselves. -/
theorem unionTypes_self (types : List String) : unionTypes types types = types := by
  have hnone : types.filter (· ∉ types) = [] :=
    List.filter_eq_nil_iff.mpr fun ty hty => by simp [hty]
  rw [unionTypes, hnone, List.append_nil]

/-- Properties that were inserted already change nothing. -/
theorem insertMany_insertMany (m m' : BTreeMap String PropertyValue) :
    (m.insertMany m'.toList).insertMany m'.toList = m.insertMany m'.toList := by
  ext k : 1
  simp only [BTreeMap.get_insertMany_toList]
  cases m'[k]? with
  | none => rfl
  | some v => rfl

/-- Properties change nothing among themselves. -/
theorem insertMany_self (m : BTreeMap String PropertyValue) : m.insertMany m.toList = m := by
  ext k : 1
  rw [BTreeMap.get_insertMany_toList]
  cases m[k]? with
  | none => rfl
  | some v => rfl

namespace ConflictResolution

/-- Reconciling the same node again writes the same node or nothing. -/
theorem repeats_reconcile (conflict : ConflictResolution) :
    BTreeMap.Repeats conflict.reconcile where
  uniform existing n n' h := by
    cases conflict with
    | lastWriteWins => cases h
    | merge => cases existing <;> cases h
    | skipExisting =>
      cases existing with
      | none => cases h
      | some _ => rfl
  absorbing existing n w h := by
    cases conflict with
    | lastWriteWins => exact Or.inr h
    | skipExisting => exact Or.inl rfl
    | merge =>
      refine Or.inr (congrArg some ?_)
      cases existing with
      | none =>
        obtain rfl := Option.some.inj h
        obtain ⟨id, iri, types, properties⟩ := n
        cases iri <;> simp [unionTypes_self, insertMany_self]
      | some prev =>
        obtain rfl := Option.some.inj h
        cases n.iri <;> simp [unionTypes_unionTypes, insertMany_insertMany]

/-- A node that is merged into a node with its own id keeps it. -/
theorem staysPut_reconcile {conflict : ConflictResolution} {nodes : BTreeMap NodeId Node}
    (h : conflict = .merge → nodes.KeyedBy Node.id) (ns : List Node) :
    BTreeMap.StaysPut conflict.reconcile Node.id nodes ns := by
  intro n _ w hw
  cases conflict with
  | lastWriteWins => rw [Option.some.inj hw]
  | skipExisting =>
    cases hprev : nodes[n.id]? with
    | none =>
      rw [hprev] at hw
      rw [Option.some.inj hw]
    | some prev =>
      rw [hprev] at hw
      cases hw
  | merge =>
    cases hprev : nodes[n.id]? with
    | none =>
      rw [hprev] at hw
      rw [Option.some.inj hw]
    | some prev =>
      rw [hprev] at hw
      rw [← Option.some.inj hw]
      exact h rfl n.id prev hprev

end ConflictResolution

/-- Nodes are reconciled with those stored before the batch. -/
theorem reconcileDelta_nodes (raw : OntologyDelta) (store : MemStore)
    (conflict : ConflictResolution) : (reconcileDelta raw store conflict).nodes =
      raw.nodes.filterMap fun n => conflict.reconcile store.ontology.nodes[n.id]? n := by
  cases conflict with
  | lastWriteWins => simp [reconcileDelta, ConflictResolution.reconcile]
  | merge => rfl
  | skipExisting => rfl

/-- Edges are not reconciled. -/
theorem reconcileDelta_edges (raw : OntologyDelta) (store : MemStore)
    (conflict : ConflictResolution) : (reconcileDelta raw store conflict).edges = raw.edges := by
  cases conflict <;> rfl

/-- Nor are axioms. -/
theorem reconcileDelta_axioms (raw : OntologyDelta) (store : MemStore)
    (conflict : ConflictResolution) : (reconcileDelta raw store conflict).axioms = raw.axioms := by
  cases conflict <;> rfl

/-- The ontology after a delta without axioms was reconciled and committed. -/
def Ontology.reconciled (o : Ontology) (raw : OntologyDelta) (conflict : ConflictResolution) :
    Ontology :=
  { o with
    nodes := BTreeMap.settle conflict.reconcile Node.id o.nodes raw.nodes
    edges := BTreeMap.insertAll Edge.id o.edges raw.edges }

/-- Committing a reconciled delta reconciles the ontology. -/
theorem applyDelta_reconcileDelta {raw : OntologyDelta} (h : raw.axioms = []) (store : MemStore)
    (conflict : ConflictResolution) (p : ProvenanceId) :
    store.ontology.applyDelta (reconcileDelta raw store conflict) p =
      store.ontology.reconciled raw conflict := by
  rw [Ontology.applyDelta_eq, reconcileDelta_nodes, reconcileDelta_edges, reconcileDelta_axioms, h]
  rfl

/-- Reconciling the same delta again changes nothing. -/
theorem Ontology.reconciled_reconciled {o : Ontology} {conflict : ConflictResolution}
    (h : conflict = .merge → o.nodes.KeyedBy Node.id) (raw : OntologyDelta) :
    (o.reconciled raw conflict).reconciled raw conflict = o.reconciled raw conflict := by
  have hagain : conflict = .merge →
      (BTreeMap.settle conflict.reconcile Node.id o.nodes raw.nodes).KeyedBy Node.id :=
    fun hmerge => (h hmerge).insertAll _
  have hnodes := BTreeMap.settle_settle conflict.repeats_reconcile
    (conflict.staysPut_reconcile h raw.nodes) (conflict.staysPut_reconcile hagain raw.nodes)
  simp only [reconciled, hnodes, BTreeMap.insertAll_insertAll]

namespace ReplayIngest

/-- Everything a source knows after a cursor, as one batch. -/
def batch (since : Cursor) (source : InMemorySource) : ActorBatch :=
  let paths := source.paths
  let events := source.journalSince since
  let actorIds := paths.foldl (fun ids p => ids.insert p.actor) (∅ : BTreeSet ActorId)
  let actorIds := events.foldl (fun ids e => ids.insert e.actor) actorIds
  ⟨paths, events, actorIds.toList.filterMap source.state, source.cursor, some "replay"⟩

/-- What a replay from a cursor sends: nothing if there is nothing. -/
def sent (since : Cursor) (source : InMemorySource) : List ActorBatch :=
  let batch := batch since source
  if batch.isEmpty then [] else [batch]

/-- What a replay of the entire history sends. -/
def once (source : InMemorySource) : List ActorBatch := sent .beginning source

end ReplayIngest

namespace Projector

/-- Replay a source once. -/
def replay (p : Projector) (source : InMemorySource) (store : MemStore) (stamp : Stamp) :
    Except ProjectionError ProjectorReport × MemStore :=
  p.run store ⟨0, 0, 0, 0⟩ ((ReplayIngest.once source).map fun batch => (batch, stamp))

/-- A store is another one with activities recorded. -/
def Recorded (store store' : MemStore) : Prop :=
  ∃ activities : List Activity,
    store'.provenance = activities.foldl ProvenanceLog.recordActivity store.provenance

/-- A projected batch is checked against the schema and then reconciled. -/
theorem delta_eq {p : Projector} {batch : ActorBatch} {raw : OntologyDelta}
    (h : p.projection.project batch p.ctx = .ok raw) (store : MemStore) :
    p.delta store batch = (enforceStrictSchema raw p.ctx.schema).map fun _ =>
      reconcileDelta raw store p.ctx.conflict := by
  have hbind : p.delta store batch = enforceStrictSchema raw p.ctx.schema >>= fun _ =>
      pure (reconcileDelta raw store p.ctx.conflict) := by
    rw [delta, h]
    rfl
  rw [hbind]
  cases enforceStrictSchema raw p.ctx.schema <;> rfl

/-- What a successful run over one batch commits. -/
theorem run_one {p : Projector} {store : MemStore} {batch : ActorBatch} (stamp : Stamp)
    (report : ProjectorReport) (hbatch : ¬batch.isEmpty) {raw : OntologyDelta}
    (hraw : p.projection.project batch p.ctx = .ok raw) (haxioms : raw.axioms = [])
    (hstrict : enforceStrictSchema raw p.ctx.schema = .ok ()) :
    ∃ report' store', p.run store report [(batch, stamp)] = (.ok report', store') ∧
      store'.ontology = store.ontology.reconciled raw p.ctx.conflict ∧ Recorded store store' := by
  have hdelta : p.delta store batch = .ok (reconcileDelta raw store p.ctx.conflict) := by
    rw [delta_eq hraw, hstrict]
    rfl
  have hontology := applyDelta_reconcileDelta haxioms store p.ctx.conflict stamp.id
  rw [run, if_neg hbatch, hdelta]
  dsimp only
  by_cases hnil : ((reconcileDelta raw store p.ctx.conflict).nodes.isEmpty &&
      (reconcileDelta raw store p.ctx.conflict).edges.isEmpty &&
      (reconcileDelta raw store p.ctx.conflict).axioms.isEmpty) = true
  · rw [if_pos hnil]
    refine ⟨report, store, rfl, ?_, [], rfl⟩
    -- an empty delta commits nothing
    simp only [Bool.and_eq_true, List.isEmpty_iff] at hnil
    rw [← hontology, Ontology.applyDelta_eq, hnil.1.1, hnil.1.2, hnil.2]
    rfl
  · rw [if_neg hnil]
    exact ⟨_, _, rfl, hontology, [p.activity batch stamp], rfl⟩

/-- A run that completes has projected its batch. -/
theorem project_of_run_ok {p : Projector} {store store' : MemStore} {batch : ActorBatch}
    {stamp : Stamp} {report report' : ProjectorReport} (hbatch : ¬batch.isEmpty)
    (h : p.run store report [(batch, stamp)] = (.ok report', store')) :
    ∃ raw, p.projection.project batch p.ctx = .ok raw ∧
      enforceStrictSchema raw p.ctx.schema = .ok () := by
  rw [run, if_neg hbatch] at h
  cases hraw : p.projection.project batch p.ctx with
  | error e =>
    have hdelta : p.delta store batch = .error e := by
      rw [delta, hraw]
      rfl
    rw [hdelta] at h
    cases h
  | ok raw =>
    cases hstrict : enforceStrictSchema raw p.ctx.schema with
    | error e =>
      have hdelta : p.delta store batch = .error e := by
        rw [delta_eq hraw, hstrict]
        rfl
      rw [hdelta] at h
      cases h
    | ok u => exact ⟨raw, rfl, hstrict⟩

end Projector

/-- After a successful replay a second one of the unchanged source succeeds, leaves the
ontology as it is and only records activities, whatever the random ids and times. -/
theorem Projector.replay_replay [Blake3] (kind : ProjectionKind) (toRfc3339 : DateTime → String)
    (label : String) (random random' : Nat → NodeId) (ctx : ProjectionCtx) (agent : AgentRef)
    (source : InMemorySource) (store store' : MemStore) (stamp stamp' : Stamp)
    (report : ProjectorReport) (hiri : ctx.iri ≠ .uuid)
    (hkeyed : ctx.conflict = .merge → store.ontology.nodes.KeyedBy Node.id)
    (hrun : replay ⟨kind.strategy random toRfc3339 label, ctx, agent⟩ source store stamp =
      (.ok report, store')) :
    ∃ report' store'', replay ⟨kind.strategy random' toRfc3339 label, ctx, agent⟩ source store'
        stamp' = (.ok report', store'') ∧
      store''.ontology = store'.ontology ∧ Recorded store' store'' := by
  unfold replay ReplayIngest.once ReplayIngest.sent at hrun ⊢
  dsimp only at hrun ⊢
  by_cases hempty : (ReplayIngest.batch .beginning source).isEmpty = true
  · rw [if_pos hempty]
    exact ⟨_, store', rfl, rfl, [], rfl⟩
  · rw [if_neg hempty] at hrun ⊢
    simp only [List.map_cons, List.map_nil] at hrun ⊢
    obtain ⟨raw, hraw, hstrict⟩ := project_of_run_ok hempty hrun
    have haxioms := ProjectionKind.project_axioms hraw
    obtain ⟨_, _, hfirst, hontology, -⟩ := run_one stamp ⟨0, 0, 0, 0⟩ hempty hraw haxioms hstrict
    cases hfirst.symm.trans hrun
    have hraw' := hraw
    rw [kind.project_of_ne_uuid hiri random random'] at hraw'
    obtain ⟨report', store'', hsecond, hontology', hrecorded⟩ :=
      @run_one ⟨kind.strategy random' toRfc3339 label, ctx, agent⟩ store' _ stamp'
        ⟨0, 0, 0, 0⟩ hempty
        raw hraw' haxioms hstrict
    refine ⟨report', store'', hsecond, ?_, hrecorded⟩
    rw [hontology', hontology]
    exact Ontology.reconciled_reconciled hkeyed raw

/-- A source with one path of two segments. -/
private def onePath : InMemorySource := ⟨[.parse "/workflow/a"], [], ∅, .beginning⟩

/-- The projector of the samples, which merges. -/
private def mergeCtx : ProjectionCtx := ⟨.contentAddressed, .merge, .inducedSchema, "sample"⟩

/-- A replay of the path. -/
private def replayPath (store : MemStore) : Except ProjectionError ProjectorReport × MemStore :=
  Projector.replay ⟨@ProjectionKind.strategy Blake3.beginning (fun _ => .filled 0) (fun _ => "") ""
    .hierarchical, mergeCtx, .software "agent" "agent"⟩ onePath store ⟨.filled 1, .epoch, .epoch⟩

private theorem replayPath_empty : (replayPath .empty).1 = .ok ⟨1, 2, 1, 1⟩ := by
  decide +kernel

/-- A second replay of the path leaves the ontology as it is. -/
theorem Projector.replay_replay_path : ∃ report store,
    replayPath (replayPath .empty).2 = (.ok report, store) ∧
      store.ontology = (replayPath .empty).2.ontology ∧
      Recorded (replayPath .empty).2 store :=
  @replay_replay Blake3.beginning .hierarchical (fun _ => "") "" (fun _ => .filled 0)
    (fun _ => .filled 0)
    mergeCtx (.software "agent" "agent") onePath .empty _ ⟨.filled 1, .epoch, .epoch⟩
    ⟨.filled 1, .epoch, .epoch⟩ ⟨1, 2, 1, 1⟩ (by decide) (fun _ => .empty _)
    (Prod.ext replayPath_empty rfl)

/-- The node that a path is projected to. -/
private def pathId (path : String) : NodeId := @Id.contentAddress Blake3.beginning .node (utf8 path)

/-- Two nodes, each under the id of the other. -/
private def swapped : MemStore :=
  { MemStore.empty with
    ontology := { Ontology.empty with
      nodes := ((∅ : BTreeMap NodeId Node).insert (pathId "/workflow")
        ⟨pathId "/workflow/a", none, [], ∅⟩).insert (pathId "/workflow/a")
        ⟨pathId "/workflow", none, [], ∅⟩ } }

private theorem replays_swapped :
    ((replayPath swapped).1.isOk && (replayPath (replayPath swapped).2).1.isOk) = true := by
  decide +kernel

private theorem labels_swapped :
    ((replayPath swapped).2.ontology.nodes[pathId "/workflow"]?.map fun n => n.types.length) =
        some 2 ∧
      ((replayPath (replayPath swapped).2).2.ontology.nodes[pathId "/workflow"]?.map
        fun n => n.types.length) = some 3 := by
  constructor
  · decide +kernel
  · decide +kernel

/-- Merging into nodes that are stored under each other's ids gives each node the labels of the
other as well, but only in the second replay. -/
theorem Projector.swapped_nodes_change_again :
    ((replayPath swapped).1.isOk && (replayPath (replayPath swapped).2).1.isOk) = true ∧
      (replayPath (replayPath swapped).2).2.ontology ≠ (replayPath swapped).2.ontology := by
  refine ⟨replays_swapped, fun heq => ?_⟩
  have hlabels := labels_swapped.2
  rw [heq, labels_swapped.1] at hlabels
  cases hlabels

end AtomrOntology
