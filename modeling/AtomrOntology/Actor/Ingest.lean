import AtomrOntology.Actor.Source

/-!
# Polling and push-hook ingest

Both ingest modes read a source in rounds: the journal after the last cursor, the paths, a
state for each actor of an event, and at last the cursor to resume from. Each of these
calls takes the lock of the source on its own, so a push can fall between any two.
-/

namespace AtomrOntology

/-- The two modes that read the source in rounds. A poll may start from a known cursor and
may leave the paths out. -/
inductive IngestMode where
  | polling (start : Cursor) (includePaths : Bool)
  | pushHook

/-- Where a run of an ingest mode stands. -/
inductive IngestPhase where
  | waiting
  | woken (since : Cursor)
  | journaled (events : List JournalEvent)
  | gathering (paths : List SupervisionPath) (events : List JournalEvent)
      (actorIds : List ActorId) (states : List SerializedState)
  | sending (batch : ActorBatch)

/-- The source, and what the one ingest task that reads it has kept and sent. -/
structure IngestRun where
  source : InMemorySource
  cursor : Cursor
  phase : IngestPhase
  sent : List ActorBatch

/-- The distinct actors of some events, in order. -/
def actorIdsOf (events : List JournalEvent) : List ActorId :=
  (events.foldl (fun ids e => ids.insert e.actor) (∅ : BTreeSet ActorId)).toList

namespace IngestMode

/-- The cursor a run starts from. -/
def start : IngestMode → Cursor
  | .polling start _ => start
  | .pushHook => .beginning

/-- The label of the batches. -/
def origin : IngestMode → String
  | .polling _ _ => "polling"
  | .pushHook => "push-hook"

/-- A poll that has found nothing ends there, a push hook goes on. -/
def givesUp (mode : IngestMode) (paths : List SupervisionPath) (events : List JournalEvent) :
    Bool :=
  match mode with
  | .polling _ _ => events.isEmpty && paths.isEmpty
  | .pushHook => false

/-- What follows the paths. -/
def afterPaths (mode : IngestMode) (paths : List SupervisionPath) (events : List JournalEvent) :
    IngestPhase :=
  if mode.givesUp paths events then .waiting
  else .gathering paths events (actorIdsOf events) []

/-- What follows the journal: without paths to include there is no call in between. -/
def afterJournal (mode : IngestMode) (events : List JournalEvent) : IngestPhase :=
  match mode with
  | .polling _ false => mode.afterPaths [] events
  | _ => .journaled events

/-- A push hook keeps an empty batch to itself. -/
def sends (mode : IngestMode) (batch : ActorBatch) : Bool :=
  match mode with
  | .polling _ _ => true
  | .pushHook => !batch.isEmpty

end IngestMode

namespace IngestRun

/-- A run over a source without events. -/
def init (mode : IngestMode) (paths : List SupervisionPath)
    (states : BTreeMap ActorId SerializedState) : IngestRun :=
  ⟨⟨paths, [], states, .beginning⟩, mode.start, .waiting, []⟩

/-- The next step of the ingest task: it wakes, makes one call to the source, or sends. -/
def advance (mode : IngestMode) (r : IngestRun) : IngestRun :=
  match r.phase with
  | .waiting => { r with phase := .woken r.cursor }
  | .woken since => { r with phase := mode.afterJournal (r.source.journalSince since) }
  | .journaled events => { r with phase := mode.afterPaths r.source.paths events }
  | .gathering paths events (id :: ids) states =>
    { r with phase := .gathering paths events ids (states ++ (r.source.state id).toList) }
  | .gathering paths events [] states =>
    { r with
      cursor := r.source.cursor
      phase := .sending ⟨paths, events, states, r.source.cursor, some mode.origin⟩ }
  | .sending batch =>
    { r with phase := .waiting, sent := if mode.sends batch then r.sent ++ [batch] else r.sent }

/-- Something happens: an event is pushed, or the ingest task makes a step. -/
inductive Action where
  | pushEvent (event : JournalEvent)
  | ingest

def step (mode : IngestMode) (r : IngestRun) : Action → IngestRun
  | .pushEvent event => { r with source := r.source.pushEvent event }
  | .ingest => r.advance mode

/-- An interleaving of pushes with the steps of the task. -/
def run (mode : IngestMode) (r : IngestRun) (actions : List Action) : IngestRun :=
  actions.foldl (step mode) r

@[simp] theorem run_cons (mode : IngestMode) (r : IngestRun) (a : Action) (as : List Action) :
    r.run mode (a :: as) = (r.step mode a).run mode as := rfl

/-- Actions in two parts run one part after the other. -/
theorem run_append (mode : IngestMode) (r : IngestRun) (as bs : List Action) :
    r.run mode (as ++ bs) = (r.run mode as).run mode bs := List.foldl_append

/-- The consumer does not change its source. -/
@[simp] theorem advance_source (mode : IngestMode) (r : IngestRun) :
    (r.advance mode).source = r.source := by
  unfold advance
  split <;> rfl

/-- The version of the source never falls. -/
theorem version_le_step (mode : IngestMode) (r : IngestRun) (a : Action) :
    r.source.cursor.version.toNat ≤ (r.step mode a).source.cursor.version.toNat := by
  cases a with
  | ingest => rw [step, advance_source]
  | pushEvent event =>
    have hnext := toNat_saturatingSucc r.source.cursor.version
    have hv := r.source.cursor.version.toNat_lt
    simp only [step, InMemorySource.pushEvent]
    omega

/-- Nor does it in a run. -/
theorem version_le_run (mode : IngestMode) (r : IngestRun) (as : List Action) :
    r.source.cursor.version.toNat ≤ (r.run mode as).source.cursor.version.toNat := by
  induction as generalizing r with
  | nil => exact Nat.le_refl _
  | cons a as ih => exact Nat.le_trans (version_le_step mode r a) (ih _)

/-- Pushes only append to the journal. -/
theorem journal_prefix_step (mode : IngestMode) (r : IngestRun) (a : Action) :
    r.source.journal <+: (r.step mode a).source.journal := by
  cases a with
  | ingest =>
    rw [step, advance_source]
  | pushEvent event => exact List.prefix_append _ _

/-- A run only adds to the journal. -/
theorem journal_prefix_run (mode : IngestMode) (r : IngestRun) (as : List Action) :
    r.source.journal <+: (r.run mode as).source.journal := by
  induction as generalizing r with
  | nil => exact List.prefix_rfl
  | cons a as ih => exact (journal_prefix_step mode r a).trans (ih _)

end IngestRun

end AtomrOntology
