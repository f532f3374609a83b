import AtomrOntology.Actor.Replay

/-!
# Fixed schemas

Under a fixed schema the raw delta of a batch is checked before it is reconciled and written.
Reconciling adds only labels of stored nodes, so a store with declared labels keeps them, and a
batch that is rejected leaves no trace.
-/

namespace AtomrOntology

/-- The labels of some nodes and edges are declared. -/
structure LabelsDeclared (schema : Schema) (nodes : List Node) (edges : List Edge) : Prop where
  nodes : ∀ n ∈ nodes, ∀ ty ∈ n.types, ty ∈ schema.nodeTypes
  edges : ∀ e ∈ edges, e.label ∈ schema.edgeTypes

/-- The labels of all stored nodes and edges are declared. -/
def Ontology.AllDeclared (o : Ontology) (schema : Schema) : Prop :=
  LabelsDeclared schema o.nodes.vals o.edges.vals

variable {schema : Schema} {o : Ontology} {store : MemStore} {raw : OntologyDelta}
  {conflict : ConflictResolution}

theorem enforceStrictSchema_ok
    (h : enforceStrictSchema raw (.fixedSchema schema) = .ok ()) :
    LabelsDeclared schema raw.nodes raw.edges := by
  unfold enforceStrictSchema at h
  dsimp only at h
  split at h
  · cases h
  · next hnodes =>
    split at h
    · cases h
    · next hedges =>
      simp only [List.find?_eq_none, Bool.not_eq_true', Bool.not_eq_false,
        Std.ExtTreeMap.contains_iff_mem] at hnodes hedges
      constructor
      · exact fun n hn ty hty => hnodes ty (List.mem_flatMap.mpr ⟨n, hn, hty⟩)
      · exact fun e he => hedges e.label (List.mem_map_of_mem he)

/-- A reconciled node has labels of the incoming and of the stored node only. -/
theorem types_reconcile {existing : Option Node} {n w : Node}
    (h : conflict.reconcile existing n = some w) {ty : String} (hty : ty ∈ w.types) :
    ty ∈ n.types ∨ ∃ prev, existing = some prev ∧ ty ∈ prev.types := by
  cases conflict with
  | lastWriteWins =>
    obtain rfl := Option.some.inj h
    exact Or.inl hty
  | skipExisting =>
    cases existing with
    | none =>
      obtain rfl := Option.some.inj h
      exact Or.inl hty
    | some prev => cases h
  | merge =>
    cases existing with
    | none =>
      obtain rfl := Option.some.inj h
      exact Or.inl hty
    | some prev =>
      obtain rfl := Option.some.inj h
      rcases List.mem_append.mp hty with hprev | hnew
      · exact Or.inr ⟨prev, rfl, hprev⟩
      · exact Or.inl (List.mem_of_mem_filter hnew)

/-- Reconciling a delta with declared labels adds no label that is not declared. -/
theorem LabelsDeclared.reconcileDelta (h : LabelsDeclared schema raw.nodes raw.edges)
    (hstore : store.ontology.AllDeclared schema) (conflict : ConflictResolution) :
    LabelsDeclared schema (AtomrOntology.reconcileDelta raw store conflict).nodes
      (AtomrOntology.reconcileDelta raw store conflict).edges := by
  constructor
  · rw [reconcileDelta_nodes]
    intro w hw ty hty
    obtain ⟨n, hn, hreconciled⟩ := List.mem_filterMap.mp hw
    obtain hin | ⟨prev, hprev, hin⟩ := types_reconcile hreconciled hty
    · exact h.nodes n hn ty hin
    · exact hstore.nodes prev (BTreeMap.mem_vals.mpr ⟨n.id, hprev⟩) ty hin
  · rw [reconcileDelta_edges]
    exact h.edges

/-- Committing declared labels keeps the labels of a store declared. -/
theorem Ontology.AllDeclared.applyDelta (h : o.AllDeclared schema) {delta : OntologyDelta}
    (hdelta : LabelsDeclared schema delta.nodes delta.edges) (p : ProvenanceId) :
    (o.applyDelta delta p).AllDeclared schema := by
  constructor
  · rw [Ontology.applyDelta_nodes]
    intro n hn
    exact (BTreeMap.mem_vals_of_insertAll hn).elim (hdelta.nodes n) (h.nodes n)
  · rw [Ontology.applyDelta_edges]
    intro e he
    exact (BTreeMap.mem_vals_of_insertAll he).elim (hdelta.edges e) (h.edges e)

namespace Projector

variable {p : Projector} {report : ProjectorReport}

/-- A batch with the projection as it is by then, and the stamp of its activity. -/
abbrev Arrival := ProjectionStrategy × ActorBatch × Stamp

/-- Commit the batches that a channel delivers, until one fails. What the projection remembers of
earlier batches is in the projection that comes with a batch. -/
def drain (p : Projector) (store : MemStore) (report : ProjectorReport) :
    List Arrival → Except ProjectionError ProjectorReport × MemStore
  | [] => (.ok report, store)
  | (projection, batch, stamp) :: rest =>
    match { p with projection }.run store report [(batch, stamp)] with
    | (.ok report, store) => drain p store report rest
    | (.error e, store) => (.error e, store)

/-- A projection without a memory is the same for each batch. -/
theorem drain_eq_run (p : Projector) (store : MemStore) (report : ProjectorReport)
    (batches : List (ActorBatch × Stamp)) :
    p.drain store report (batches.map fun b => (p.projection, b)) = p.run store report batches := by
  induction batches generalizing store report with
  | nil => rfl
  | cons b rest ih =>
    obtain ⟨batch, stamp⟩ := b
    rw [List.map_cons, drain]
    by_cases hempty : batch.isEmpty = true
    · simp only [run, if_pos hempty, ih]
    · cases hdelta : p.delta store batch with
      | error e => simp only [run, if_neg hempty, hdelta]
      | ok delta =>
        by_cases hnil : (delta.nodes.isEmpty && delta.edges.isEmpty &&
            delta.axioms.isEmpty) = true
        · simp only [run, if_neg hempty, hdelta, if_pos hnil, ih]
        · simp only [run, if_neg hempty, hdelta, if_neg hnil, ih]

/-- One batch: nothing is written, or its reconciled delta after the check, or it fails. -/
theorem run_one_cases (p : Projector) (store : MemStore) (report : ProjectorReport)
    (batch : ActorBatch) (stamp : Stamp) :
    (∃ e, p.run store report [(batch, stamp)] = (.error e, store)) ∨
    (∃ report', p.run store report [(batch, stamp)] = (.ok report', store)) ∨
    ∃ report' raw, p.projection.project batch p.ctx = .ok raw ∧
      enforceStrictSchema raw p.ctx.schema = .ok () ∧
      p.run store report [(batch, stamp)] = (.ok report',
        store.commitWithProvenance (reconcileDelta raw store p.ctx.conflict)
          (p.activity batch stamp)) := by
  rw [run]
  by_cases hempty : batch.isEmpty = true
  · rw [if_pos hempty]
    exact Or.inr (Or.inl ⟨report, rfl⟩)
  · rw [if_neg hempty]
    cases hdelta : p.delta store batch with
    | error e => exact Or.inl ⟨e, rfl⟩
    | ok delta =>
      dsimp only
      split
      · exact Or.inr (Or.inl ⟨report, rfl⟩)
      · obtain ⟨raw, hraw, hrest⟩ := bind_eq_ok.mp hdelta
        obtain ⟨_, hstrict, hpure⟩ := bind_eq_ok.mp hrest
        obtain rfl := Except.ok.inj hpure
        exact Or.inr (Or.inr ⟨_, raw, hraw, hstrict, rfl⟩)

/-- A run keeps the labels of the store declared. -/
theorem drain_declared (hfixed : p.ctx.schema = .fixedSchema schema)
    (hstore : store.ontology.AllDeclared schema) (batches : List Arrival) :
    (p.drain store report batches).2.ontology.AllDeclared schema := by
  induction batches generalizing store report with
  | nil => exact hstore
  | cons b rest ih =>
    obtain ⟨projection, batch, stamp⟩ := b
    rw [drain]
    obtain ⟨e, hrun⟩ | ⟨report', hrun⟩ | ⟨report', raw, -, hstrict, hrun⟩ :=
      run_one_cases { p with projection } store report batch stamp
    · rw [hrun]
      exact hstore
    · rw [hrun]
      exact ih hstore
    · rw [hrun]
      have hstrict' : enforceStrictSchema raw (.fixedSchema schema) = .ok () := by
        rw [← hfixed]
        exact hstrict
      have hdelta := (enforceStrictSchema_ok hstrict').reconcileDelta hstore p.ctx.conflict
      exact ih (hstore.applyDelta hdelta _)

/-- A run goes on from where it was. -/
theorem drain_append (p : Projector) (store : MemStore) (report : ProjectorReport)
    (done rest : List Arrival) : p.drain store report (done ++ rest) =
      match p.drain store report done with
      | (.ok report, store) => p.drain store report rest
      | (.error e, store) => (.error e, store) := by
  induction done generalizing store report with
  | nil => rfl
  | cons b done ih =>
    obtain ⟨projection, batch, stamp⟩ := b
    rw [List.cons_append, drain, drain]
    generalize ({ p with projection } : Projector).run store report [(batch, stamp)] = result
    obtain ⟨e | report', store'⟩ := result
    · rfl
    · exact ih store' report'

/-- A batch that fails leaves the store as it is. -/
theorem drain_one_error {b : Arrival} {e : ProjectionError} {store' : MemStore}
    (h : p.drain store report [b] = (.error e, store')) : store' = store := by
  obtain ⟨projection, batch, stamp⟩ := b
  rw [drain] at h
  obtain ⟨e', hrun⟩ | ⟨report', hrun⟩ | ⟨report', raw, -, -, hrun⟩ :=
    run_one_cases { p with projection } store report batch stamp
  · rw [hrun] at h
    exact (Prod.mk.inj h).2.symm
  · rw [hrun] at h
    cases (Prod.mk.inj h).1
  · rw [hrun] at h
    cases (Prod.mk.inj h).1

/-- A run that fails ends at the first batch that fails. -/
theorem drain_error {batches : List Arrival} {e : ProjectionError}
    (h : (p.drain store report batches).1 = .error e) :
    ∃ done next rest report' before, batches = done ++ next :: rest ∧
      p.drain store report done = (.ok report', before) ∧
      (p.drain before report' [next]).1 = .error e := by
  induction batches using List.reverseRecOn with
  | nil => cases h
  | append_singleton batches last ih =>
    rw [drain_append] at h
    rcases hdone : p.drain store report batches with ⟨e' | report', before⟩
    · -- it had failed before the last batch
      rw [hdone] at h ih
      obtain ⟨done, next, rest, report', before', rfl, hok, hnext⟩ := ih h
      exact ⟨done, next, rest ++ [last], report', before', by simp, hok, hnext⟩
    · rw [hdone] at h
      exact ⟨batches, last, [], report', before, rfl, hdone, h⟩

end Projector

/-- Under a fixed schema a store with declared labels has declared labels after every batch. A
batch that fails ends the run with its error, and leaves nodes, edges, axioms and provenance as
they were after the batch before it. -/
theorem Projector.fixedSchema_enforced (p : Projector) (schema : Schema)
    (hfixed : p.ctx.schema = .fixedSchema schema) (store : MemStore) (report : ProjectorReport)
    (hstore : store.ontology.AllDeclared schema) (batches : List Arrival) :
    (∀ done, done <+: batches → (p.drain store report done).2.ontology.AllDeclared schema) ∧
    (∀ done next rest report' before e, batches = done ++ next :: rest →
      p.drain store report done = (.ok report', before) →
      (p.drain before report' [next]).1 = .error e →
        p.drain store report batches = (.error e, before)) ∧
    ∀ e, (p.drain store report batches).1 = .error e →
      ∃ done next rest report' before, batches = done ++ next :: rest ∧
        p.drain store report done = (.ok report', before) ∧
        (p.drain before report' [next]).1 = .error e := by
  refine ⟨fun done _ => drain_declared hfixed hstore done, ?_, fun e he => ?_⟩
  · intro done next rest report' before e hbatches hdone hnext
    have hrun : p.drain before report' [next] = (.error e, before) :=
      Prod.ext hnext (drain_one_error (Prod.ext hnext rfl))
    rw [hbatches, ← List.singleton_append, drain_append, hdone]
    dsimp only
    rw [drain_append, hrun]
  · exact drain_error he

/-- A schema that declares actors and path segments, but no supervision. -/
private def actorSchema : Schema :=
  (Schema.empty.declareNodeType (.new "Actor")).declareNodeType (.new "ActorPathSegment")

private def actorProjector : Projector :=
  ⟨@ProjectionKind.strategy Blake3.beginning (fun _ => .filled 0) (fun _ => "") "" .hierarchical,
    ⟨.contentAddressed, .merge, .fixedSchema actorSchema, "sample"⟩, .software "agent" "agent"⟩

/-- A batch with one path. -/
private def pathArrival (path : String) (stamp : UInt8) : Projector.Arrival :=
  (actorProjector.projection, ⟨[.parse path], [], [], .beginning, none⟩,
    ⟨.filled stamp, .epoch, .epoch⟩)

/-- A path of two segments needs an edge that the schema does not declare: the run ends with that
violation, and the store is as the path before it left it. -/
theorem Projector.fixedSchema_rejects_path :
    ∃ before, actorProjector.drain .empty ⟨0, 0, 0, 0⟩ [pathArrival "/a" 1] =
        (.ok ⟨1, 1, 0, 1⟩, before) ∧
      actorProjector.drain .empty ⟨0, 0, 0, 0⟩ [pathArrival "/a" 1, pathArrival "/a/b" 2] =
        (.error (.schemaViolation (.edgeLabel "supervises")), before) := by
  have hdone : actorProjector.drain .empty ⟨0, 0, 0, 0⟩ [pathArrival "/a" 1] = (.ok ⟨1, 1, 0, 1⟩,
      (actorProjector.drain .empty ⟨0, 0, 0, 0⟩ [pathArrival "/a" 1]).2) :=
    Prod.ext (by decide +kernel) rfl
  refine ⟨_, hdone, ?_⟩
  exact (fixedSchema_enforced actorProjector actorSchema rfl .empty ⟨0, 0, 0, 0⟩
    ⟨by simp [MemStore.empty, Ontology.empty], by simp [MemStore.empty, Ontology.empty]⟩
    [pathArrival "/a" 1, pathArrival "/a/b" 2]).2.1 [pathArrival "/a" 1] (pathArrival "/a/b" 2) []
      _ _ _ rfl hdone (by decide +kernel)

end AtomrOntology
