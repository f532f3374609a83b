import AtomrOntology.Core.Numbers
import AtomrOntology.Persist.Reload
import AtomrOntology.Store.Trait

/-!
# Checkpointers and the persistent store

A checkpointer keeps snapshots on some medium. The in-memory one keeps the value, the
file one its JSON document, the SQLite one a table of documents of which the one with
the highest version is current. The persistent store commits to its state and hands a
snapshot of the new state to its checkpointer.
-/

namespace AtomrOntology

/-- Errors raised by checkpointers. -/
inductive CheckpointerError where
  | io (message : String)
  | serialize (message : String)
  | other (message : String)
deriving DecidableEq, Repr

/-- The display form. -/
def CheckpointerError.text : CheckpointerError → String
  | .io message => "io error: " ++ message
  | .serialize message => "serialize error: " ++ message
  | .other message => "checkpointer error: " ++ message

/-- A persistence provider: what a successful save leaves on the medium, and what is
loaded from it. -/
structure Checkpointer where
  Medium : Type
  label : String
  save : Snapshot → Medium → Medium
  load : Medium → Except CheckpointerError (Option Snapshot)

/-- The provider keeps the most recent snapshot it is given. -/
def memCheckpointer : Checkpointer where
  Medium := Option Snapshot
  label := "memory"
  save s _ := some s
  load m := .ok m

section

variable [SerdeJson] [Chrono]

/-- Read a snapshot from the document written for one. -/
def Snapshot.read (j : Json) : Except CheckpointerError Snapshot :=
  match j.reparse >>= Snapshot.codec.de with
  | .ok s => .ok s
  | .error e => .error (.serialize (SerdeJson.errorText e))

/-- The file holds the document of the most recent snapshot. -/
def fileCheckpointer (path : String) : Checkpointer where
  Medium := Option Json
  label := "file:" ++ path
  save s _ := some (Snapshot.codec.ser s)
  load
    | some j => some <$> Snapshot.read j
    | none => .ok none

/-- A row of the `snapshots` table; row ids grow with the position in the table. -/
structure SnapshotRow where
  json : Json
  version : Int64

/-- The row a snapshot is saved as. Its version wraps into `i64`. -/
def SnapshotRow.ofSnapshot (s : Snapshot) : SnapshotRow :=
  ⟨Snapshot.codec.ser s, s.version.toInt64⟩

omit [SerdeJson] [Chrono] in
/-- The earlier of two rows in `ORDER BY version DESC, id DESC`, the second being newer. -/
def SnapshotRow.prefer : Option SnapshotRow → SnapshotRow → Option SnapshotRow
  | some best, r => if best.version ≤ r.version then some r else some best
  | none, r => some r

omit [SerdeJson] [Chrono] in
/-- The first row of `ORDER BY version DESC, id DESC`. -/
def currentRow (rows : List SnapshotRow) : Option SnapshotRow := rows.foldl SnapshotRow.prefer none

/-- Saves append to the table; the row with the highest version is loaded. -/
def sqliteCheckpointer (path : String) : Checkpointer where
  Medium := List SnapshotRow
  label := "sqlite:" ++ path
  save s rows := rows ++ [.ofSnapshot s]
  load rows := match currentRow rows with
    | some row => some <$> Snapshot.read row.json
    | none => .ok none

end

/-- The state guarded by the store's lock. -/
structure PersistentState where
  ontology : Ontology
  provenance : ProvenanceLog
  version : UInt64

namespace PersistentState

/-- The default state. -/
def empty : PersistentState := ⟨.empty, .empty, 0⟩

/-- A snapshot of the state. -/
def snapshot (s : PersistentState) : Snapshot := ⟨s.ontology, s.provenance, s.version⟩

/-- Apply a delta and its activity under the lock. -/
def commit (s : PersistentState) (delta : OntologyDelta) (activity : Activity) : PersistentState :=
  { ontology := s.ontology.applyDelta delta activity.id
    provenance := s.provenance.recordActivity activity
    version := saturatingSucc s.version }

/-- Every entity of the state is stored under its own id. -/
def Keyed (s : PersistentState) : Prop := s.snapshot.Keyed

theorem Keyed.commit {s : PersistentState} (h : s.Keyed) (delta : OntologyDelta)
    (activity : Activity) : (s.commit delta activity).Keyed :=
  ⟨h.ontology.applyDelta delta activity.id, h.provenance.recordActivity activity⟩

end PersistentState

/-- A store over a checkpointer: the state in memory and the medium. -/
structure PersistentStore (c : Checkpointer) where
  state : PersistentState
  medium : c.Medium

namespace PersistentStore

variable {c : Checkpointer}

/-- `PersistentStore::new`: the state loaded from a medium. -/
def new (c : Checkpointer) (medium : c.Medium) : Except StoreError PersistentState :=
  match c.load medium with
  | .ok (some s) => .ok ⟨s.ontology, s.provenance, s.version⟩
  | .ok none => .ok .empty
  | .error e => .error (.io ("checkpointer(" ++ c.label ++ "): " ++ e.text))

/-- `commit_with_provenance` whose save succeeds. -/
def commitWithProvenance (p : PersistentStore c) (delta : OntologyDelta) (activity : Activity) :
    Except StoreError ProvenanceId × PersistentStore c :=
  let state := p.state.commit delta activity
  (.ok activity.id, ⟨state, c.save state.snapshot p.medium⟩)

/-- A store starts with the committed state exactly when that is what is loaded. -/
theorem new_eq_ok_iff {medium : c.Medium} {s : Snapshot} (hne : c.load medium ≠ .ok none) :
    new c medium = .ok ⟨s.ontology, s.provenance, s.version⟩ ↔ c.load medium = .ok (some s) := by
  unfold new
  cases h : c.load medium with
  | error e => simp
  | ok r =>
    cases r with
    | none => exact absurd h hne
    | some t => cases s; cases t; simp

end PersistentStore

end AtomrOntology
