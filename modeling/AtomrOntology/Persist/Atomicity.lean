import AtomrOntology.Core.Settle
import AtomrOntology.Persist.Concurrent

/-!
# Commits whose save fails

A commit changes the state before its snapshot is saved, and a save that fails takes nothing
back: the call returns an error over a state that the delta is already in, and the next
save writes it out.
-/

namespace AtomrOntology

/-- A persistence provider whose saves may fail. Whatever a save depends on is part of the
medium. -/
structure FallibleCheckpointer where
  Medium : Type
  label : String
  save : Snapshot → Medium → Except CheckpointerError Unit × Medium
  load : Medium → Except CheckpointerError (Option Snapshot)

namespace FallibleCheckpointer

variable (c : FallibleCheckpointer)

/-- Map a checkpointer error into a store error. -/
def checkpointerErr (label : String) (e : CheckpointerError) : StoreError :=
  .io ("checkpointer(" ++ label ++ "): " ++ e.text)

/-- `commit_with_provenance`: what the call returns, the state in memory and the medium. -/
def commitWithProvenance (state : PersistentState) (medium : c.Medium) (delta : OntologyDelta)
    (activity : Activity) : Except StoreError ProvenanceId × PersistentState × c.Medium :=
  let state := state.commit delta activity
  match c.save state.snapshot medium with
  | (.ok _, medium) => (.ok activity.id, state, medium)
  | (.error e, medium) => (.error (checkpointerErr c.label e), state, medium)

/-- A provider whose saves never fail. -/
def ofCheckpointer (c : Checkpointer) : FallibleCheckpointer where
  Medium := c.Medium
  label := c.label
  save s m := (.ok (), c.save s m)
  load := c.load

/-- While no save fails, this is the commit of the store. -/
theorem commitWithProvenance_ofCheckpointer (c : Checkpointer) (p : PersistentStore c)
    (delta : OntologyDelta) (activity : Activity) :
    (ofCheckpointer c).commitWithProvenance p.state p.medium delta activity =
      ((p.commitWithProvenance delta activity).1, (p.commitWithProvenance delta activity).2.state,
        (p.commitWithProvenance delta activity).2.medium) := rfl

/-- A call that fails leaves the state in memory as it was, and whatever commits follow, what
they leave in memory and hand to the checkpointer is the same as without the call. -/
def Atomic (state : PersistentState) (medium : c.Medium) (delta : OntologyDelta)
    (activity : Activity) : Prop :=
  ∀ e state' medium', c.commitWithProvenance state medium delta activity =
    (.error e, state', medium') →
    state' = state ∧ ∀ later : List (OntologyDelta × Activity),
      (state'.commits later).snapshot = (state.commits later).snapshot

/-- The commit has nothing to change: the version is at its maximum, what the delta holds last
under an id is stored as given, and so is the activity. -/
structure Idle (state : PersistentState) (delta : OntologyDelta) (activity : Activity) : Prop where
  version : state.version = UInt64.ofNat (2 ^ 64 - 1)
  nodes : ∀ n, BTreeMap.LastWithKey Node.id delta.nodes n → state.ontology.nodes[n.id]? = some n
  edges : ∀ e, BTreeMap.LastWithKey Edge.id delta.edges e → state.ontology.edges[e.id]? = some e
  axioms : ∀ a, BTreeMap.LastWithKey Axiom.id delta.axioms a →
    state.ontology.axioms[a.id]? = some (a.withDefaultProvenance activity.id)
  activity : state.provenance.activities[activity.id]? = some activity

/-- A delta changes nothing exactly if what it holds last under an id is stored. -/
theorem applyDelta_eq_self_iff {o : Ontology} {delta : OntologyDelta} {p : ProvenanceId} :
    o.applyDelta delta p = o ↔
      (∀ n, BTreeMap.LastWithKey Node.id delta.nodes n → o.nodes[n.id]? = some n) ∧
      (∀ e, BTreeMap.LastWithKey Edge.id delta.edges e → o.edges[e.id]? = some e) ∧
      ∀ a, BTreeMap.LastWithKey Axiom.id delta.axioms a →
        o.axioms[a.id]? = some (a.withDefaultProvenance p) := by
  have haxioms :
    BTreeMap.insertAll Axiom.id o.axioms (delta.axioms.map (·.withDefaultProvenance p)) =
      o.axioms ↔ ∀ a, BTreeMap.LastWithKey Axiom.id delta.axioms a →
        o.axioms[a.id]? = some (a.withDefaultProvenance p) := by
    simp only [BTreeMap.insertAll_eq_self_iff,
      BTreeMap.lastWithKey_map fun a => Axiom.withDefaultProvenance_id a p]
    constructor
    · intro h a ha
      have hstored := h _ ⟨a, ha, rfl⟩
      rwa [Axiom.withDefaultProvenance_id] at hstored
    · rintro h _ ⟨a, ha, rfl⟩
      rw [Axiom.withDefaultProvenance_id]
      exact h a ha
  rw [Ontology.applyDelta_eq, ← haxioms, ← BTreeMap.insertAll_eq_self_iff,
    ← BTreeMap.insertAll_eq_self_iff]
  cases o
  simp only [Ontology.mk.injEq, true_and]

/-- Recording an activity changes nothing exactly if it is recorded as given. -/
theorem recordActivity_eq_self_iff {l : ProvenanceLog} {activity : Activity} :
    l.recordActivity activity = l ↔ l.activities[activity.id]? = some activity := by
  constructor
  · intro h
    have hget := congrArg (·.activities[activity.id]?) h
    rw [← hget]
    exact (BTreeMap.get_insert _ _ _ _).trans (if_pos rfl)
  · intro h
    have hsame : l.activities.insert activity.id activity = l.activities := by
      ext id : 1
      rw [BTreeMap.get_insert]
      by_cases hid : activity.id = id
      · rw [if_pos hid, ← hid, h]
      · rw [if_neg hid]
    rw [ProvenanceLog.recordActivity, hsame]

/-- A commit leaves the state as it was exactly if it has nothing to change. -/
theorem commit_eq_self_iff {state : PersistentState} {delta : OntologyDelta} {activity : Activity} :
    state.commit delta activity = state ↔ Idle state delta activity := by
  constructor
  · intro h
    obtain ⟨hnodes, hedges, haxioms⟩ :=
      applyDelta_eq_self_iff.mp (congrArg PersistentState.ontology h)
    exact ⟨saturatingSucc_eq_self_iff.mp (congrArg PersistentState.version h), hnodes, hedges,
      haxioms, recordActivity_eq_self_iff.mp (congrArg PersistentState.provenance h)⟩
  · intro h
    rw [PersistentState.commit, applyDelta_eq_self_iff.mpr ⟨h.nodes, h.edges, h.axioms⟩,
      recordActivity_eq_self_iff.mpr h.activity, saturatingSucc_eq_self_iff.mpr h.version]

/-- A commit is atomic exactly if its save succeeds or it has nothing to change. -/
theorem atomic_iff (state : PersistentState) (medium : c.Medium) (delta : OntologyDelta)
    (activity : Activity) : c.Atomic state medium delta activity ↔
      (∃ medium', c.save (state.commit delta activity).snapshot medium = (.ok (), medium')) ∨
        Idle state delta activity := by
  unfold Atomic commitWithProvenance
  rw [← commit_eq_self_iff]
  rcases hsave : c.save (state.commit delta activity).snapshot medium with ⟨r, medium'⟩
  cases r with
  | ok _ => simp [hsave]
  | error err =>
    simp only [hsave, Prod.mk.injEq, reduceCtorEq, false_and, exists_false, false_or]
    constructor
    · intro h
      exact (h _ _ _ ⟨rfl, rfl, rfl⟩).1
    · intro h e state' medium'' hcall
      obtain ⟨-, rfl, -⟩ := hcall
      rw [h]
      exact ⟨rfl, fun _ => rfl⟩

/-- A provider that has no room. -/
def fullDisk : FallibleCheckpointer where
  Medium := Unit
  label := "file:snapshot.json"
  save _ m := (.error (.io "No space left on device"), m)
  load _ := .ok none

private def acme : OntologyDelta := ⟨[⟨.filled 1, none, ["Organization"], ∅⟩], [], []⟩

private def importing : Activity := ⟨.filled 2, "importing", .epoch, none, none, ∅⟩

/-- The commit fails, and the version and the node are there. -/
theorem full_disk_keeps_delta : ¬fullDisk.Atomic .empty () acme importing := by
  intro h
  have hstate := (h _ _ _ rfl).1
  have hversion := congrArg PersistentState.version hstate
  exact absurd hversion (by decide)

end FallibleCheckpointer

end AtomrOntology
