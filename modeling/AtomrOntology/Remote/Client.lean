import AtomrOntology.Persist.Observation
import AtomrOntology.Remote.Server

/-!
# The client

The client posts an envelope, reads the response and reports every failure as an I/O
error. What it posts reaches the server as the reads of a connection.
-/

namespace AtomrOntology

/-- Write a value, and read what was written. -/
def Codec.transmit {α : Type} [SerdeJson] (c : Codec α) (x : α) : De α := (c.ser x).reparse >>= c.de

/-- A value comes back from its document. -/
theorem Codec.transmit_eq_ok {α : Type} [SerdeJson] {c : Codec α} {x y : α} :
    c.transmit x = .ok y ↔ c.Fits 127 x ∧ c.Reads x y := by
  rw [transmit, bind_eq_ok]
  simp only [Json.reparse_eq_ok, Codec.Reads, Json.recursionLimit]
  constructor
  · intro h
    obtain ⟨j, ⟨hdepth, hj⟩, hd⟩ := h
    exact ⟨Nat.le_of_lt_succ hdepth, j, hj, hd⟩
  · intro h
    obtain ⟨hfits, j, hj, hd⟩ := h
    exact ⟨j, ⟨Nat.lt_succ_of_le hfits, hj⟩, hd⟩

namespace Remote

/-- The kinds of `RemoteError` the client raises. -/
inductive CallError where
  | server (message : String)
  | encoding (message : String)

/-- The display form. -/
def CallError.text : CallError → String
  | .server message => "server error: " ++ message
  | .encoding message => "encoding error: " ++ message

/-- Surface a failed call as an error of the store. -/
def intoStoreErr (e : CallError) : StoreError := .io e.text

section

variable [SerdeJson] [Chrono] [JsonBytes] [HttpTexts] {σ : Type}

/-- What the client makes of a response. -/
def readResponse {Res : Type} (methodName : String) (response : Codec Res) (r : Response) :
    Except CallError Res :=
  if ¬(200 ≤ r.status ∧ r.status < 300) then
    match JsonBytes.fromSlice r.body >>= (RpcResponse.codec Codec.value).de with
    | .ok parsed => .error (.server (parsed.error.getD ("HTTP " ++ HttpTexts.status r.status)))
    | .error _ =>
      .error (.server ("HTTP " ++ HttpTexts.status r.status ++ ": " ++ HttpTexts.lossy r.body))
  else
    match JsonBytes.fromSlice r.body >>= (RpcResponse.codec response).de with
    | .error e => .error (.encoding ("deserialize " ++ methodName ++ ": " ++ SerdeJson.errorText e))
    | .ok ⟨_, some err⟩ => .error (.server err)
    | .ok ⟨some result, none⟩ => .ok result
    | .ok ⟨none, none⟩ =>
      .error (.encoding ("response for " ++ methodName ++ " missing both result and error"))

/-- The body the client posts. -/
def requestBody {Req : Type} (methodName : String) (request : Codec Req) (params : Req) :
    List UInt8 :=
  ((RpcEnvelope.codec request).ser ⟨methodName, params⟩).toVec

/-- Issue a single RPC, given how a request is answered. -/
def call {Req Res : Type} (send : ParsedRequest → σ → Response × σ) (methodName : String)
    (request : Codec Req) (response : Codec Res) (params : Req) (s : σ) :
    Except StoreError Res × σ :=
  let (r, s) := send ⟨"POST", "/rpc/" ++ methodName, requestBody methodName request params⟩ s
  ((readResponse methodName response r).mapError intoStoreErr, s)

/-- `OntologyStore for RemoteClient`, given how a request is answered. -/
def RemoteClient (send : ParsedRequest → σ → Response × σ) : OntologyStore σ where
  upsertNode node := call send "upsert_node" UpsertNodeRequest UpsertNodeResponse node
  upsertEdge edge := call send "upsert_edge" UpsertEdgeRequest UpsertEdgeResponse edge
  upsertAxiom a := call send "upsert_axiom" UpsertAxiomRequest UpsertAxiomResponse a
  node i := call send "get_node" GetNodeRequest GetNodeResponse i
  edge i := call send "get_edge" GetEdgeRequest GetEdgeResponse i
  matchPattern pattern s :=
    let res := call send "match_pattern" MatchPatternRequest MatchPatternResponse
      (.ofPattern pattern) s
    (res.1.map (List.map WireMatchRow.intoRow), res.2)
  traverse plan s :=
    let res := call send "traverse" TraverseRequest TraverseResponse (.ofPlan plan) s
    (res.1.map (List.map WireMatchRow.intoRow), res.2)
  snapshot s :=
    let res := call send "snapshot" SnapshotRequest SnapshotResponse () s
    (res.1.map WireOntology.intoOntology, res.2)
  diff other s :=
    let res := call send "diff" DiffRequest DiffResponse (.ofOntology other) s
    (res.1.map WireStoreDiff.intoDiff, res.2)
  commitWithProvenance delta activity :=
    call send "commit" CommitRequest CommitResponse (.ofDelta delta, .ofActivity activity)
  provenance s :=
    let res := call send "provenance" ProvenanceRequest ProvenanceResponse () s
    (res.1.map WireProvenanceLog.intoLog, res.2)

/-- The request a call posts. -/
def requestOf (k : StoreCall) : ParsedRequest :=
  ((RemoteClient fun request _ => (⟨0, []⟩, request)).call ⟨"", "", []⟩ k).2

/-- What a call makes of the response. -/
def answerOf (k : StoreCall) (response : Response) : Except StoreError StoreAnswer :=
  ((RemoteClient fun _ s => (response, s)).call () k).1

/-- A call posts one request and reads one response. -/
theorem client_call (send : ParsedRequest → σ → Response × σ) (s : σ) (k : StoreCall) :
    (RemoteClient send).call s k =
      (answerOf k (send (requestOf k) s).1, (send (requestOf k) s).2) := by
  cases k <;> rfl

end

end Remote

end AtomrOntology
