import AtomrOntology.Actor.Source
import AtomrOntology.Persist.Checkpointer

/-!
# Snapshots as an actor source

Nodes of an upstream snapshot that carry an event kind are read as journal events. They
have no position of their own: each call numbers all of them again, from the cursor it is
given on, while the cursor to resume from is the version of the snapshot.
-/

namespace AtomrOntology

/-- Errors raised by actor sources. -/
inductive SourceError where
  | io (message : String)
  | malformed (message : String)
  | iri (e : IriError)
  | other (message : String)
deriving DecidableEq, Repr

namespace SnapshotSource

/-- The supervision path of a record. -/
def extractPath (node : Node) : Option SupervisionPath :=
  match node.properties["path"]? with
  | some (.string s) => some (.parse s)
  | _ => none

/-- The actor of a record; its node when none is named. -/
def extractActor (node : Node) : ActorId :=
  match node.properties["actor_id"]? with
  | some (.string s) => ⟨s⟩
  | _ => ⟨node.id.toHex⟩

/-- The event kind of a record. -/
def extractEventKind (node : Node) : Option JournalEventKind :=
  match node.properties["event_kind"]? with
  | some (.string "created") => some .created
  | some (.string "state_changed") => some .stateChanged
  | some (.string "completed") => some .completed
  | some (.string "terminated") => some .terminated
  | some (.string other) => some (.custom other)
  | _ => none

/-- The payload of a record. -/
def extractPayload (node : Node) : JsonValue :=
  match node.properties["event_payload"]? with
  | some (.json v) => v
  | some (.string s) => ⟨.str s, Eq.refl true⟩
  | _ => ⟨.null, Eq.refl true⟩

/-- The nodes that are read as events. -/
def eventNodes (snap : Snapshot) : List Node :=
  snap.ontology.nodes.vals.filter fun node => (extractEventKind node).isSome

section

variable (now : Node → DateTime)

/-- Number the events of some nodes after a position. Each event is paired with its node. -/
def numberEvents : UInt64 → List Node → List (Node × JournalEvent)
  | _, [] => []
  | seq, node :: rest =>
    match extractEventKind node with
    | none => numberEvents seq rest
    | some kind =>
      let seq := saturatingSucc seq
      let event := { JournalEvent.new (.at seq) (extractActor node) kind (now node) with
        payload := extractPayload node, path := extractPath node }
      (node, event) :: numberEvents seq rest

/-- What a journal call delivers: every event node, unless the version is not newer. -/
def deliveries (snap : Option Snapshot) (since : Cursor) : List (Node × JournalEvent) :=
  match snap with
  | none => []
  | some snap =>
    if snap.version ≤ since.version then []
    else numberEvents now since.version snap.ontology.nodes.vals

/-- The events strictly after a cursor. -/
def journal (loaded : Except CheckpointerError (Option Snapshot)) (since : Cursor) :
    Except SourceError (List JournalEvent) :=
  match loaded with
  | .error e => .error (.io e.text)
  | .ok snap => .ok ((deliveries now snap since).map Prod.snd)

end

/-- The version of what is loaded. -/
def versionOf (snap : Option Snapshot) : UInt64 := (snap.map Snapshot.version).getD 0

/-- The current cursor. -/
def cursor (loaded : Except CheckpointerError (Option Snapshot)) : Except SourceError Cursor :=
  match loaded with
  | .error e => .error (.io e.text)
  | .ok snap => .ok (.at (versionOf snap))

variable {now : Node → DateTime}

theorem map_fst_numberEvents (seq : UInt64) (nodes : List Node) :
    (numberEvents now seq nodes).map Prod.fst =
      nodes.filter fun node => (extractEventKind node).isSome := by
  induction nodes generalizing seq with
  | nil => rfl
  | cons node rest ih =>
    cases hkind : extractEventKind node with
    | none => simp [numberEvents, hkind, ih]
    | some kind => simp [numberEvents, hkind, ih]

/-- The numbers begin after the given one and advance with the events, up to the largest. -/
theorem version_numberEvents {seq : UInt64} {nodes : List Node} {d : Node × JournalEvent}
    (hd : d ∈ numberEvents now seq nodes) :
    min (seq.toNat + 1) (2 ^ 64 - 1) ≤ d.2.cursor.version.toNat ∧
      d.2.cursor.version.toNat ≤
        min (seq.toNat + (numberEvents now seq nodes).length) (2 ^ 64 - 1) := by
  induction nodes generalizing seq with
  | nil => cases hd
  | cons node rest ih =>
    cases hkind : extractEventKind node with
    | none =>
      simp only [numberEvents, hkind] at hd ⊢
      exact ih hd
    | some kind =>
      have hsucc := toNat_saturatingSucc seq
      simp only [numberEvents, hkind] at hd ⊢
      rw [List.length_cons]
      rcases List.mem_cons.mp hd with rfl | hd
      · simp only [JournalEvent.new, Cursor.at]
        omega
      · have := ih hd
        omega

/-- The last event has the largest number. -/
theorem exists_version_numberEvents {seq : UInt64} {nodes : List Node}
    (hne : numberEvents now seq nodes ≠ []) :
    ∃ d ∈ numberEvents now seq nodes, d.2.cursor.version.toNat =
      min (seq.toNat + (numberEvents now seq nodes).length) (2 ^ 64 - 1) := by
  induction nodes generalizing seq with
  | nil => exact absurd rfl hne
  | cons node rest ih =>
    cases hkind : extractEventKind node with
    | none =>
      simp only [numberEvents, hkind] at hne ⊢
      exact ih hne
    | some kind =>
      have hsucc := toNat_saturatingSucc seq
      simp only [numberEvents, hkind]
      by_cases hrest : numberEvents now (saturatingSucc seq) rest = []
      · refine ⟨_, List.mem_cons_self, ?_⟩
        rw [hrest]
        simpa [JournalEvent.new, Cursor.at] using hsucc
      · obtain ⟨d, hd, hv⟩ := ih hrest
        refine ⟨d, List.mem_cons_of_mem _ hd, ?_⟩
        rw [hv, List.length_cons]
        omega

end SnapshotSource

end AtomrOntology
