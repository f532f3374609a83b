import AtomrOntology.Actor.Projector

/-!
# Flat projection

One node for each workflow and run that a batch mentions, with the events of that run as
an array of steps. States have no path: each gets a node of its own under a pair that
stands for the actor.
-/

namespace AtomrOntology

/-- An array of values. -/
def JsonValue.arr (items : List JsonValue) : JsonValue :=
  ⟨.arr (items.map Subtype.val), by
    induction items with
    | nil => rfl
    | cons v vs ih =>
      simp only [Json.DistinctKeys, List.map_cons, Json.distinctItems, Bool.and_eq_true] at ih ⊢
      exact ⟨v.property, ih⟩⟩

/-- Arrays with the same text have the same items. -/
theorem JsonValue.arr_injective : Function.Injective JsonValue.arr := by
  intro vs ws h
  exact List.map_injective_iff.mpr Subtype.val_injective (Json.arr.inj (congrArg Subtype.val h))

namespace Flat

/-- A workflow and a run. -/
abbrev RunKey := String × String

/-- What follows the last `workflow` and the last `run` of some segments, a segment that
follows one of the two not being looked at. -/
def scanSegments : Option String → Option String → List String → Option String × Option String
  | wf, run, [] => (wf, run)
  | _, run, ["workflow"] => (none, run)
  | wf, _, ["run"] => (wf, none)
  | wf, run, seg :: next :: rest =>
    if seg = "workflow" then scanSegments (some next) run rest
    else if seg = "run" then scanSegments wf (some next) rest
    else scanSegments wf run (next :: rest)
  | wf, run, [_] => (wf, run)

/-- `workflow_run_key`. -/
def workflowRunKey (path : SupervisionPath) : Option RunKey :=
  match scanSegments none none path.segments with
  | (some w, some r) => some (w, r)
  | (some w, none) => some (w, "<no-run>")
  | _ => none

/-- The pair of an event. -/
def eventKey (e : JournalEvent) : Option RunKey := e.path.bind workflowRunKey

/-- The pair that stands for an actor without a path. -/
def unroutedKey (s : SerializedState) : RunKey := ("<unrouted>", s.actor.value)

section

variable (toRfc3339 : DateTime → String)

/-- An event as a step. -/
def stepOf (e : JournalEvent) : JsonValue :=
  ⟨.obj [("actor", .str e.actor.value), ("at", .str (toRfc3339 e.at)),
      ("cursor", Codec.u64.ser e.cursor.version), ("kind", .str (journalEventKindStr e.kind)),
      ("payload", e.payload.val)], by
    simp [Json.DistinctKeys, Json.distinctEntries, Codec.u64, Codec.ints, e.payload.property]⟩

/-- A state blob as an entry. -/
def stateOf (s : SerializedState) : JsonValue :=
  ⟨.obj [("actor", .str s.actor.value), ("digest", match s.digest with
      | some d => .str d
      | none => .null), ("payload", s.payload.val)], by
    cases s.digest <;> simp [Json.DistinctKeys, Json.distinctEntries, s.payload.property]⟩

/-- What a batch says about a pair. -/
structure FlatBucket where
  pathCount : UInt64
  events : List JsonValue
  states : List JsonValue

/-- The empty bucket. -/
def FlatBucket.empty : FlatBucket := ⟨0, [], []⟩

/-- Change the bucket of a pair, if there is a pair. -/
def touch (bs : BTreeMap RunKey FlatBucket) (key : Option RunKey)
    (change : FlatBucket → FlatBucket) : BTreeMap RunKey FlatBucket :=
  match key with
  | some key => bs.entryOr key .empty change
  | none => bs

/-- The buckets of a batch: its paths, then its events, then its states. -/
def buckets (batch : ActorBatch) : BTreeMap RunKey FlatBucket :=
  let bs := batch.paths.foldl (fun bs path => touch bs (workflowRunKey path) fun b =>
    { b with pathCount := b.pathCount + 1 }) ∅
  let bs := batch.events.foldl (fun bs event => touch bs (eventKey event) fun b =>
    { b with events := b.events ++ [stepOf toRfc3339 event] }) bs
  batch.states.foldl (fun bs state => touch bs (some (unroutedKey state)) fun b =>
    { b with states := b.states ++ [stateOf state] }) bs

end

/-- The path of a pair. -/
def keyPath (key : RunKey) : SupervisionPath := .parse ("/" ++ key.1 ++ "/" ++ key.2)

/-- A text without its last character if that is a slash. -/
def trimTrailingSlash (s : String) : String :=
  if s.toList.getLast? = some '/' then .ofList s.toList.dropLast else s

section

variable [Blake3]

/-- The id and IRI of the node of a pair. -/
def mint (iri : IriMintingStrategy) (key : RunKey) : Except IriError (NodeId × Option Iri) :=
  match iri with
  | .uuid | .contentAddressed =>
    .ok (Id.contentAddress (utf8 ("flat:" ++ key.1 ++ ":" ++ key.2)), none)
  | .pathBased base => do
    let iri ← Iri.new (trimTrailingSlash base.value ++ (keyPath key).render)
    return (Id.contentAddress (utf8 iri.value), some iri)

/-- The node of a bucket. -/
def nodeOf (ctx : ProjectionCtx) (key : RunKey) (bucket : FlatBucket) : Except IriError Node := do
  let (id, iri) ← mint ctx.iri key
  let node : Node := ⟨id, iri, ["Actor", "Run"], ∅⟩
  return ((((((node.withProperty
    "path" (.string (keyPath key).render)).withProperty
    "workflow" (.string key.1)).withProperty
    "run" (.string key.2)).withProperty
    "source_label" (.string ctx.sourceLabel)).withProperty
    "steps" (.json (.arr bucket.events))).withProperty
    "states" (.json (.arr bucket.states))).withProperty
    "path_count" (.integer bucket.pathCount.toInt64)

/-- The nodes of some buckets, in order. -/
def nodesOf (ctx : ProjectionCtx) : List (RunKey × FlatBucket) → Except IriError (List Node)
  | [] => .ok []
  | (key, bucket) :: rest => do
    let node ← nodeOf ctx key bucket
    let nodes ← nodesOf ctx rest
    return node :: nodes

/-- `FlatProjection`, under a label. -/
def flatProjection (toRfc3339 : DateTime → String) (label : String) : ProjectionStrategy where
  label := if label.isEmpty then "flat" else label
  project batch ctx :=
    match nodesOf ctx (buckets toRfc3339 batch).toList with
    | .ok nodes => .ok ⟨nodes, [], []⟩
    | .error e => .error (.iri e)

end

end Flat

end AtomrOntology
