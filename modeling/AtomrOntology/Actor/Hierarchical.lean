import AtomrOntology.Actor.Flat

/-!
# Hierarchical and event-stream projections

The hierarchical projection has a node for each prefix of a supervision path, for each
journal event and for each state blob, connected by supervision, emission and state edges.
The event-stream projection has a node for each journal event, in a chain of successors.
-/

namespace AtomrOntology

variable [Blake3]

namespace IriMintingStrategy

/-- The id and IRI of an actor, given the id that a random draw would yield. -/
def mintActor (iri : IriMintingStrategy) (random : NodeId) (path : SupervisionPath) :
    Except IriError (NodeId × Option Iri) :=
  match iri with
  | .pathBased base => do
    let iri ← Iri.new (Flat.trimTrailingSlash base.value ++ path.render)
    return (Id.contentAddress (utf8 iri.value), some iri)
  | .contentAddressed => .ok (Id.contentAddress (utf8 path.render), none)
  | .uuid => .ok (random, none)

/-- The id and IRI of a journal event, given the id that a random draw would yield. -/
def mintEvent (iri : IriMintingStrategy) (random : NodeId) (event : JournalEvent) :
    Except IriError (NodeId × Option Iri) :=
  match iri with
  | .pathBased base => do
    let suffix := "/event/" ++ toString event.cursor.version.toNat ++ "/" ++ event.actor.value
    let iri ← Iri.new (Flat.trimTrailingSlash base.value ++ suffix)
    return (Id.contentAddress (utf8 iri.value), some iri)
  | .contentAddressed =>
    let key := "event:" ++ toString event.cursor.version.toNat ++ ":" ++ event.actor.value ++ ":" ++
      journalEventKindStr event.kind
    .ok (Id.contentAddress (utf8 key), none)
  | .uuid => .ok (random, none)

variable {iri : IriMintingStrategy}

/-- Unless ids are random, none is drawn for a path. -/
theorem mintActor_of_ne_uuid (h : iri ≠ .uuid) (random random' : NodeId) (path : SupervisionPath) :
    iri.mintActor random path = iri.mintActor random' path := by
  cases iri with
  | uuid => exact absurd rfl h
  | pathBased base => rfl
  | contentAddressed => rfl

/-- Nor for an event. -/
theorem mintEvent_of_ne_uuid (h : iri ≠ .uuid) (random random' : NodeId) (event : JournalEvent) :
    iri.mintEvent random event = iri.mintEvent random' event := by
  cases iri with
  | uuid => exact absurd rfl h
  | pathBased base => rfl
  | contentAddressed => rfl

end IriMintingStrategy

/-- The most specific label of a path segment. -/
def typeForSegment (_depth : Nat) (segment : String) : String :=
  if segment = "workflow" then "Workflow"
  else if segment = "run" then "Run"
  else if segment = "step" then "Step"
  else "ActorPathSegment"

/-- The node of a journal event. -/
def eventNode (toRfc3339 : DateTime → String) (ctx : ProjectionCtx) (event : JournalEvent)
    (id : NodeId) (iri : Option Iri) : Node :=
  let node : Node := ⟨id, iri, ["ActorEvent"], ∅⟩
  let node := ((((node.withProperty
    "event_kind" (.string (journalEventKindStr event.kind))).withProperty
    "actor_id" (.string event.actor.value)).withProperty
    "cursor_version" (.integer event.cursor.version.toInt64)).withProperty
    "event_at" (.string (toRfc3339 event.at))).withProperty
    "source_label" (.string ctx.sourceLabel)
  match event.payload.val with
  | .null => node
  | _ => node.withProperty "event_payload" (.json event.payload)

omit [Blake3] in
/-- The node of an event has the id that was minted. -/
theorem eventNode_id {toRfc3339 : DateTime → String} {ctx : ProjectionCtx} {event : JournalEvent}
    {id : NodeId} {i : Option Iri} : (eventNode toRfc3339 ctx event id i).id = id := by
  unfold eventNode
  dsimp only
  split <;> rfl

/-- The node of a state blob. -/
def stateNode (ctx : ProjectionCtx) (state : SerializedState) : Node :=
  ⟨Id.contentAddress (utf8 ("state:" ++ state.actor.value)), none, ["ActorState"],
    .ofList [("actor_id", PropertyValue.string state.actor.value), ("state", .json state.payload),
      ("source_label", .string ctx.sourceLabel)] compare⟩

/-- What the projection of a batch has built: nodes and edges, the id of each path prefix, and
how many ids were minted. -/
structure HierarchicalDraft where
  nodes : List Node
  edges : List Edge
  prefixToId : BTreeMap String NodeId
  minted : Nat

namespace HierarchicalDraft

/-- Nothing yet. -/
def empty : HierarchicalDraft := ⟨[], [], ∅, 0⟩

def pushNode (d : HierarchicalDraft) (node : Node) : HierarchicalDraft :=
  { d with nodes := d.nodes ++ [node] }

def pushEdge (d : HierarchicalDraft) (edge : Edge) : HierarchicalDraft :=
  { d with edges := d.edges ++ [edge] }

variable (random : Nat → NodeId) (toRfc3339 : DateTime → String) (ctx : ProjectionCtx)

/-- The node of a path prefix. The attributes of a path go to its leaf. -/
def segmentNode (path : SupervisionPath) (current segment : String) (depth : Nat) (id : NodeId)
    (iri : Option Iri) : Node :=
  let node : Node := ⟨id, iri, ["Actor", typeForSegment depth segment], ∅⟩
  let node := (((node.withProperty
    "path" (.string current)).withProperty
    "segment" (.string segment)).withProperty
    "depth" (.integer (UInt64.ofNat depth).toInt64)).withProperty
    "source_label" (.string ctx.sourceLabel)
  if depth + 1 = path.segments.length then
    path.attributes.toList.foldl (fun node kv => node.withProperty kv.1 (.json kv.2)) node
  else node

/-- Insert the prefixes of a path that end with some segments. -/
def insertSegments (path : SupervisionPath) : List (String × Nat) → String → Option NodeId →
    HierarchicalDraft → Except IriError HierarchicalDraft
  | [], _, _, d => .ok d
  | (segment, depth) :: rest, current, prev, d => do
    let current := current ++ "/" ++ segment
    let (id, iri) ← ctx.iri.mintActor (random d.minted) (.parse current)
    let d := { d with minted := d.minted + 1 }
    let d := if d.prefixToId.contains current then d
      else { d.pushNode (segmentNode ctx path current segment depth id iri) with
        prefixToId := d.prefixToId.insert current id }
    let d := match prev with
      | some parent => d.pushEdge (.between parent "supervises" id)
      | none => d
    insertSegments path rest current (some id) d

/-- `insert_path`. -/
def insertPath (d : HierarchicalDraft) (path : SupervisionPath) :
    Except IriError HierarchicalDraft :=
  insertSegments random ctx path path.segments.zipIdx "" none d

/-- Insert an event and the path it happened at. -/
def insertEvent (d : HierarchicalDraft) (event : JournalEvent) :
    Except IriError HierarchicalDraft := do
  let d ← match event.path with
    | some path => insertPath random ctx d path
    | none => .ok d
  let (id, iri) ← ctx.iri.mintEvent (random d.minted) event
  let d := { d.pushNode (eventNode toRfc3339 ctx event id iri) with minted := d.minted + 1 }
  match event.path with
  | none => return d
  | some path =>
    match d.prefixToId[path.render]? with
    | some actorId => return d.pushEdge (.between actorId "emitted" id)
    | none => return d

/-- Insert a state and attach it to the first path prefix that ends with its actor. -/
def insertState (d : HierarchicalDraft) (state : SerializedState) : HierarchicalDraft :=
  let node := stateNode ctx state
  let d := d.pushNode node
  match d.prefixToId.toList.find? fun kv =>
      ("/" ++ state.actor.value).toList.isSuffixOf kv.1.toList with
  | some (_, actorId) => d.pushEdge (.between actorId "holdsState" node.id)
  | none => d

/-- The draft of a batch: its paths, then its events, then its states. -/
def ofBatch (batch : ActorBatch) : Except IriError HierarchicalDraft := do
  let d ← batch.paths.foldlM (insertPath random ctx) empty
  let d ← batch.events.foldlM (insertEvent random toRfc3339 ctx) d
  return batch.states.foldl (insertState ctx) d

end HierarchicalDraft

/-- `HierarchicalProjection`, under a label. -/
def hierarchicalProjection (random : Nat → NodeId) (toRfc3339 : DateTime → String)
    (label : String) : ProjectionStrategy where
  label := if label.isEmpty then "hierarchical" else label
  project batch ctx :=
    match HierarchicalDraft.ofBatch random toRfc3339 ctx batch with
    | .ok d => .ok ⟨d.nodes, d.edges, []⟩
    | .error e => .error (.iri e)

/-- The nodes of some events, and the edges between successive ones. -/
def eventStream (random : Nat → NodeId) (toRfc3339 : DateTime → String) (ctx : ProjectionCtx) :
    List JournalEvent → Option NodeId → Nat → Except IriError (List Node × List Edge)
  | [], _, _ => .ok ([], [])
  | event :: rest, prev, minted => do
    let (id, iri) ← ctx.iri.mintEvent (random minted) event
    let node := eventNode toRfc3339 ctx event id iri
    let node := match event.path with
      | some path => node.withProperty "path" (.string path.render)
      | none => node
    let (nodes, edges) ← eventStream random toRfc3339 ctx rest (some id) (minted + 1)
    match prev with
    | some prev => return (node :: nodes, .between prev "successor" id :: edges)
    | none => return (node :: nodes, edges)

/-- `EventStreamProjection`, under a label. -/
def eventStreamProjection (random : Nat → NodeId) (toRfc3339 : DateTime → String)
    (label : String) : ProjectionStrategy where
  label := if label.isEmpty then "event-stream" else label
  project batch ctx :=
    match eventStream random toRfc3339 ctx batch.events none 0 with
    | .ok (nodes, edges) => .ok ⟨nodes, edges, []⟩
    | .error e => .error (.iri e)

/-- The built-in projections that keep nothing from one batch to the next. -/
inductive ProjectionKind where
  | hierarchical
  | eventStream
  | flat
deriving DecidableEq, Repr

/-- The projection of a kind. -/
def ProjectionKind.strategy (random : Nat → NodeId) (toRfc3339 : DateTime → String)
    (label : String) : ProjectionKind → ProjectionStrategy
  | .hierarchical => hierarchicalProjection random toRfc3339 label
  | .eventStream => eventStreamProjection random toRfc3339 label
  | .flat => Flat.flatProjection toRfc3339 label

variable {random : Nat → NodeId} {toRfc3339 : DateTime → String} {label : String}
  {ctx : ProjectionCtx}

/-- No projection asserts axioms. -/
theorem ProjectionKind.project_axioms {kind : ProjectionKind} {batch : ActorBatch}
    {delta : OntologyDelta}
    (h : (kind.strategy random toRfc3339 label).project batch ctx = .ok delta) :
    delta.axioms = [] := by
  cases kind with
  | hierarchical =>
    simp only [strategy, hierarchicalProjection] at h
    split at h <;> cases h
    rfl
  | eventStream =>
    simp only [strategy, eventStreamProjection] at h
    split at h <;> cases h
    rfl
  | flat =>
    simp only [strategy, Flat.flatProjection] at h
    split at h <;> cases h
    rfl

/-- Segments are then inserted alike, whatever is drawn. -/
theorem HierarchicalDraft.insertSegments_of_ne_uuid (h : ctx.iri ≠ .uuid)
    (random random' : Nat → NodeId) (path : SupervisionPath) (segments : List (String × Nat))
    (current : String) (prev : Option NodeId) (d : HierarchicalDraft) :
    insertSegments random ctx path segments current prev d =
      insertSegments random' ctx path segments current prev d := by
  induction segments generalizing current prev d with
  | nil => rfl
  | cons s rest ih =>
    simp only [insertSegments, ih]
    rw [IriMintingStrategy.mintActor_of_ne_uuid h (random d.minted) (random' d.minted)]

/-- So is a whole batch. -/
theorem HierarchicalDraft.ofBatch_of_ne_uuid (h : ctx.iri ≠ .uuid)
    (random random' : Nat → NodeId) (batch : ActorBatch) :
    ofBatch random toRfc3339 ctx batch = ofBatch random' toRfc3339 ctx batch := by
  have hpath : insertPath random ctx = insertPath random' ctx := by
    funext d path
    exact insertSegments_of_ne_uuid h random random' path _ _ _ d
  have hevent : insertEvent random toRfc3339 ctx = insertEvent random' toRfc3339 ctx := by
    funext d event
    simp only [insertEvent, hpath]
    have hmint : ∀ d : HierarchicalDraft, ctx.iri.mintEvent (random d.minted) event =
        ctx.iri.mintEvent (random' d.minted) event :=
      fun d => IriMintingStrategy.mintEvent_of_ne_uuid h _ _ event
    simp only [hmint]
  rw [ofBatch, ofBatch, hpath, hevent]

/-- So is a stream of events. -/
theorem eventStream_of_ne_uuid (h : ctx.iri ≠ .uuid) (random random' : Nat → NodeId)
    (events : List JournalEvent) (prev : Option NodeId) (minted : Nat) :
    eventStream random toRfc3339 ctx events prev minted =
      eventStream random' toRfc3339 ctx events prev minted := by
  induction events generalizing prev minted with
  | nil => rfl
  | cons event rest ih =>
    simp only [eventStream, ih]
    rw [IriMintingStrategy.mintEvent_of_ne_uuid h (random minted) (random' minted)]

/-- Unless ids are random, a batch is projected to the same delta every time. -/
theorem ProjectionKind.project_of_ne_uuid (h : ctx.iri ≠ .uuid) (kind : ProjectionKind)
    (random random' : Nat → NodeId) (batch : ActorBatch) :
    (kind.strategy random toRfc3339 label).project batch ctx =
      (kind.strategy random' toRfc3339 label).project batch ctx := by
  cases kind with
  | hierarchical =>
    simp only [strategy, hierarchicalProjection,
      HierarchicalDraft.ofBatch_of_ne_uuid h random random']
  | eventStream =>
    simp only [strategy, eventStreamProjection, eventStream_of_ne_uuid h random random']
  | flat => rfl

/-- The hierarchical projection, for running the model. -/
def sampleStrategy : ProjectionStrategy :=
  @hierarchicalProjection .beginning (fun _ => .filled 0) (fun _ => "") ""

/-- What the hierarchical projection makes of a batch, for running the model. -/
def sampleDelta (batch : ActorBatch) : OntologyDelta :=
  match sampleStrategy.project batch .sample with
  | .ok delta => delta
  | .error _ => ⟨[], [], []⟩

omit [Blake3] in
/-- A batch that the hierarchical projection accepts is projected to its sample delta. -/
theorem project_sampleDelta {batch : ActorBatch}
    (h : (sampleStrategy.project batch .sample).isOk = true) :
    sampleStrategy.project batch .sample = .ok (sampleDelta batch) := by
  unfold sampleDelta
  cases hdelta : sampleStrategy.project batch .sample with
  | ok delta => rfl
  | error e =>
    rw [hdelta] at h
    cases h

end AtomrOntology
