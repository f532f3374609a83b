import AtomrOntology.Persist.Durable

/-!
# One table, many stores

Stores opened one after another on one SQLite table, some from its contents and some from
memory. Each commit appends a row under the version its own store counts, and the next
store starts from the row of the highest version, which need not be the last one saved.
-/

namespace AtomrOntology

/-- `PersistentStore::from_memory`: the checkpointer is not consulted. -/
def PersistentStore.fromMemory : PersistentState := .empty

/-- What happens to the stores on a medium. -/
inductive SessionEvent where
  | new
  | fromMemory
  | upsertNode (n : Node)
  | upsertEdge (e : Edge)
  | upsertAxiom (a : Axiom)
  | commit (delta : OntologyDelta) (activity : Activity)

/-- The store that is open, if any, the medium, and the state of the last commit that was
acknowledged. -/
structure Sessions (c : Checkpointer) where
  store : Option PersistentState
  medium : c.Medium
  acknowledged : Option PersistentState

namespace Sessions

variable {c : Checkpointer}

/-- No store was opened on the medium yet. -/
def start (medium : c.Medium) : Sessions c := ⟨none, medium, none⟩

/-- Change the ontology of the open store in memory. -/
def upsert (s : Sessions c) (change : Ontology → Ontology) : Sessions c :=
  { s with store := s.store.map fun p => { p with ontology := change p.ontology } }

/-- What an event does. A store that fails to open is no store, and a commit on none is no
commit. -/
def step (s : Sessions c) : SessionEvent → Sessions c
  | .new =>
    match PersistentStore.new c s.medium with
    | .ok p => { s with store := some p }
    | .error _ => { s with store := none }
  | .fromMemory => { s with store := some PersistentStore.fromMemory }
  | .upsertNode n => s.upsert (·.upsertNode n)
  | .upsertEdge e => s.upsert (·.upsertEdge e)
  | .upsertAxiom a => s.upsert (·.upsertAxiom a)
  | .commit delta activity =>
    match s.store with
    | none => s
    | some p =>
      let committed := (PersistentStore.commitWithProvenance ⟨p, s.medium⟩ delta activity).2
      ⟨some committed.state, committed.medium, some committed.state⟩

/-- The sessions after some events. -/
def run (medium : c.Medium) (events : List SessionEvent) : Sessions c :=
  events.foldl step (start medium)

@[simp] theorem run_snoc (medium : c.Medium) (events : List SessionEvent) (e : SessionEvent) :
    run medium (events ++ [e]) = (run medium events).step e := by
  simp [run]

/-- Opening one more store recovers the state of the last acknowledged commit. -/
def Recovered (s : Sessions c) : Prop :=
  ∀ p, s.acknowledged = some p → PersistentStore.new c s.medium = .ok p

/-- All an event can do to the medium and to what is acknowledged: nothing, or one commit
of the open store. -/
theorem step_cases (s : Sessions c) (e : SessionEvent) :
    ((s.step e).medium = s.medium ∧ (s.step e).acknowledged = s.acknowledged) ∨
    ∃ delta activity p, e = .commit delta activity ∧ s.store = some p ∧
      (s.step e).medium = c.save (p.commit delta activity).snapshot s.medium ∧
      (s.step e).acknowledged = some (p.commit delta activity) := by
  cases e with
  | new =>
    left
    simp only [step]
    cases PersistentStore.new c s.medium <;> exact ⟨rfl, rfl⟩
  | fromMemory => exact Or.inl ⟨rfl, rfl⟩
  | upsertNode n => exact Or.inl ⟨rfl, rfl⟩
  | upsertEdge e => exact Or.inl ⟨rfl, rfl⟩
  | upsertAxiom a => exact Or.inl ⟨rfl, rfl⟩
  | commit delta activity =>
    cases hs : s.store with
    | none =>
      left
      simp only [step, hs]
      exact ⟨trivial, trivial⟩
    | some p =>
      right
      refine ⟨delta, activity, p, rfl, rfl, ?_, ?_⟩
      · simp only [step, hs]
        rfl
      · simp only [step, hs]
        rfl

/-- The open store is keyed. -/
def StoreKeyed (s : Sessions c) : Prop := ∀ p, s.store = some p → p.Keyed

theorem StoreKeyed.upsert {s : Sessions c} (h : s.StoreKeyed) {change : Ontology → Ontology}
    (hchange : ∀ o, o.Keyed → (change o).Keyed) : (s.upsert change).StoreKeyed := by
  intro p hp
  obtain ⟨q, hq, rfl⟩ := Option.map_eq_some_iff.mp hp
  exact ⟨hchange _ (h q hq).ontology, (h q hq).provenance⟩

section

variable [SerdeJson] [Chrono] {path : String}

/-- A loaded state is keyed. -/
theorem keyed_of_new {medium : (sqliteCheckpointer path).Medium} {p : PersistentState}
    (h : PersistentStore.new (sqliteCheckpointer path) medium = .ok p) : p.Keyed := by
  unfold PersistentStore.new at h
  simp only [sqliteCheckpointer] at h
  cases hrow : currentRow medium with
  | none =>
    rw [hrow] at h
    obtain rfl := Except.ok.inj h
    exact ⟨.empty, .empty⟩
  | some row =>
    rw [hrow] at h
    cases hread : Snapshot.read row.json with
    | error e =>
      simp only [hread] at h
      cases h
    | ok s =>
      simp only [hread] at h
      obtain rfl := Except.ok.inj h
      obtain ⟨j, -, hd⟩ := Snapshot.read_eq_ok.mp hread
      exact Snapshot.keyed_of_de hd

theorem StoreKeyed.step {s : Sessions (sqliteCheckpointer path)} (h : s.StoreKeyed)
    (e : SessionEvent) : (s.step e).StoreKeyed := by
  cases e with
  | new =>
    intro p hp
    simp only [Sessions.step] at hp
    cases hnew : PersistentStore.new (sqliteCheckpointer path) s.medium with
    | error e =>
      rw [hnew] at hp
      cases hp
    | ok q =>
      rw [hnew] at hp
      obtain rfl := Option.some.inj hp
      exact keyed_of_new hnew
  | fromMemory =>
    intro p hp
    obtain rfl := Option.some.inj hp
    exact ⟨.empty, .empty⟩
  | upsertNode n => exact h.upsert fun _ ho => ho.upsertNode n
  | upsertEdge e => exact h.upsert fun _ ho => ho.upsertEdge e
  | upsertAxiom a => exact h.upsert fun _ ho => ho.upsertAxiom a
  | commit delta activity =>
    intro p hp
    simp only [Sessions.step] at hp
    cases hs : s.store with
    | none =>
      simp [hs] at hp
    | some q =>
      rw [hs] at hp
      obtain rfl := Option.some.inj hp
      exact (h q hs).commit delta activity

theorem storeKeyed_run (medium : (sqliteCheckpointer path).Medium) (events : List SessionEvent) :
    (run medium events).StoreKeyed := by
  induction events using List.reverseRecOn with
  | nil =>
    intro p hp
    cases hp
  | append_singleton events e ih =>
    rw [run_snoc]
    exact ih.step e

/-- Every row of the table was saved from a snapshot. -/
theorem exists_savedRows (saved : List Snapshot) (events : List SessionEvent) :
    ∃ all, (run (savedRows path saved) events).medium = savedRows path all := by
  induction events using List.reverseRecOn with
  | nil => exact ⟨saved, rfl⟩
  | append_singleton events e ih =>
    obtain ⟨all, hall⟩ := ih
    rw [run_snoc]
    rcases step_cases (run (savedRows path saved) events) e with ⟨hm, -⟩ | ⟨delta, activity, p, -,
      -, hm, -⟩
    · exact ⟨all, hm.trans hall⟩
    · refine ⟨all ++ [(p.commit delta activity).snapshot], ?_⟩
      rw [hm, hall]
      simp [savedRows, sqliteCheckpointer]

/-- The rows of a table. -/
def rows (medium : (sqliteCheckpointer path).Medium) : List SnapshotRow := medium

/-- A commit of the open store leaves a state the reader restores, under a version that as
an `i64` no row of the table exceeds. -/
def CommitOk (s : Sessions (sqliteCheckpointer path)) (delta : OntologyDelta)
    (activity : Activity) : Prop :=
  ∀ p, s.store = some p → (p.commit delta activity).snapshot.Restorable ∧
    ∀ row ∈ rows s.medium, row.version ≤ (saturatingSucc p.version).toInt64

/-- One commit is recovered exactly when it meets the condition. -/
theorem recovered_commit_iff {saved : List Snapshot} {events : List SessionEvent}
    {delta : OntologyDelta} {activity : Activity} {p : PersistentState}
    (hp : (run (savedRows path saved) events).store = some p) :
    (run (savedRows path saved) (events ++ [.commit delta activity])).Recovered ↔
      (run (savedRows path saved) events).CommitOk delta activity := by
  obtain ⟨all, hall⟩ := @exists_savedRows _ _ path saved events
  have hkeyed := (storeKeyed_run (savedRows path saved) events p hp).commit delta activity
  have hcommit := @sqlite_new_commit _ _ path all p delta activity hkeyed
  have hrows : (∀ u ∈ all, u.version.toInt64 ≤ (p.commit delta activity).version.toInt64) ↔
      ∀ row ∈ rows (savedRows path all),
        row.version ≤ (saturatingSucc p.version).toInt64 := by
    simp only [rows, savedRows, List.forall_mem_map]
    rfl
  rw [hrows, ← hall] at hcommit
  have hstep : (run (savedRows path saved) (events ++ [.commit delta activity])) =
      ⟨some (p.commit delta activity), (PersistentStore.commitWithProvenance
        ⟨p, (run (savedRows path saved) events).medium⟩ delta activity).2.medium,
        some (p.commit delta activity)⟩ := by
    rw [run_snoc]
    simp only [step, hp]
    rfl
  rw [hstep]
  unfold Recovered CommitOk
  simp only [Option.some.injEq, hp, forall_eq']
  exact hcommit

/-- Every restart in a history of stores on one table recovers the last acknowledged
commit exactly when every commit of the history meets the condition. -/
theorem recovered_iff_commits_ok (path : String) (saved : List Snapshot)
    (events : List SessionEvent) :
    (∀ pre post, events = pre ++ post → (run (savedRows path saved) pre).Recovered) ↔
      ∀ pre delta activity post, events = pre ++ .commit delta activity :: post →
        (run (savedRows path saved) pre).CommitOk delta activity := by
  constructor
  · intro h pre delta activity post hevents p hp
    have hrecovered := h (pre ++ [.commit delta activity]) post (by simp [hevents])
    exact (recovered_commit_iff hp).mp hrecovered p hp
  · intro h pre
    induction pre using List.reverseRecOn with
    | nil =>
      intro _ _ p hp
      cases hp
    | append_singleton pre e ih =>
      intro post hevents
      have hprefix : events = pre ++ e :: post := by simp [hevents]
      rcases step_cases (run (savedRows path saved) pre) e with
        ⟨hm, ha⟩ | ⟨delta, activity, p, rfl, hp, -, -⟩
      · intro p hp
        rw [run_snoc, ha] at hp
        rw [run_snoc, hm]
        exact ih (e :: post) hprefix p hp
      · exact (recovered_commit_iff hp).mpr (h pre delta activity post hprefix)

end

end Sessions

private def emptyDelta : OntologyDelta := ⟨[], [], []⟩

private def ingestion (n : UInt8) : Activity := ⟨.filled n, "ingestion", .epoch, none, none, ∅⟩

/-- Two commits, then a store from memory that commits once. -/
private def restartedFromMemory : List SessionEvent :=
  [.new, .commit emptyDelta (ingestion 1), .commit emptyDelta (ingestion 2), .fromMemory,
    .commit emptyDelta (ingestion 3)]

private theorem versions_restartedFromMemory :
    let s := @Sessions.run (@sqliteCheckpointer .plain .plain "s.db") [] restartedFromMemory
    s.acknowledged.map PersistentState.version = some 1 ∧
      (@PersistentStore.new (@sqliteCheckpointer .plain .plain "s.db") s.medium).toOption.map
        PersistentState.version = some 2 := by
  decide +kernel

/-- A restart finds the second commit, though the third was acknowledged last. -/
theorem from_memory_commit_is_not_recovered :
    ¬(@Sessions.run (@sqliteCheckpointer .plain .plain "s.db")
      [] restartedFromMemory).Recovered := by
  intro h
  obtain ⟨hlast, hfound⟩ := versions_restartedFromMemory
  obtain ⟨p, hp, hversion⟩ := Option.map_eq_some_iff.mp hlast
  rw [h p hp] at hfound
  exact absurd (hversion.symm.trans (Option.some.inj hfound)) (by decide)

end AtomrOntology
