import AtomrOntology.Core.JsonText
import AtomrOntology.Remote.Codecs
import AtomrOntology.Remote.Framing

/-!
# The server

A request is routed by its path to one operation of the store. The body is an envelope
around the parameters, the response carries the result or the text of an error.
-/

namespace AtomrOntology

/-- What reading bytes as JSON relies on: `serde_json::from_slice` reads what `to_vec` wrote. -/
class JsonBytes [SerdeJson] where
  fromSlice : List UInt8 → De Json
  fromSlice_text : ∀ j : Json, fromSlice (utf8 j.text) = j.reparse

open Classical in
/-- The reader of what the printer writes, and of nothing else. -/
noncomputable abbrev JsonBytes.plain [SerdeJson] : JsonBytes where
  fromSlice bytes :=
    if h : ∃ j : Json, utf8 j.text = bytes then h.choose.reparse else .error .recursionLimitExceeded
  fromSlice_text j := by
    have h : ∃ i : Json, utf8 i.text = utf8 j.text := ⟨j, rfl⟩
    rw [dif_pos h, Json.text_injective (utf8_injective h.choose_spec)]

/-- `serde_json::to_vec`. -/
def Json.toVec [SerdeJson] (j : Json) : List UInt8 := utf8 j.text

namespace Remote

/-- Outbound RPC envelope. -/
structure RpcEnvelope (T : Type) where
  method : String
  params : T

def RpcEnvelope.codec {T : Type} (c : Codec T) : Codec (RpcEnvelope T) :=
  (Codec.record <| .both (.required "method" .string) (.required "params" c)).iso
    { toFun e := (e.method, e.params)
      invFun x := ⟨x.1, x.2⟩ }

/-- Inbound RPC response. -/
structure RpcResponse (T : Type) where
  result : Option T
  error : Option String

namespace RpcResponse

/-- A successful response. -/
def ok {T : Type} (value : T) : RpcResponse T := ⟨some value, none⟩

/-- A failure response. -/
def err {T : Type} (message : String) : RpcResponse T := ⟨none, some message⟩

def codec {T : Type} (c : Codec T) : Codec (RpcResponse T) :=
  (Codec.record <| .both (.skipNone "result" c) (.skipNone "error" .string)).iso
    { toFun r := (r.result, r.error)
      invFun x := ⟨x.1, x.2⟩ }

end RpcResponse

/-- A payload with one field. -/
def payload {T : Type} (name : String) (c : Codec T) : Codec T := .record (.required name c)

/-- A payload without fields. -/
def emptyPayload : Codec Unit := .record .unit

section Payloads

variable [SerdeJson] [Chrono]

def UpsertNodeRequest : Codec Node := payload "node" Node.codec
def UpsertNodeResponse : Codec NodeId := payload "id" .id
def UpsertEdgeRequest : Codec Edge := payload "edge" Edge.codec
def UpsertEdgeResponse : Codec EdgeId := payload "id" .id
def UpsertAxiomRequest : Codec Axiom := payload "axiom" Axiom.codec
def UpsertAxiomResponse : Codec Unit := emptyPayload
def GetNodeRequest : Codec NodeId := payload "id" .id
def GetNodeResponse : Codec (Option Node) := .record (.optional "node" Node.codec)
def GetEdgeRequest : Codec EdgeId := payload "id" .id
def GetEdgeResponse : Codec (Option Edge) := .record (.optional "edge" Edge.codec)
def MatchPatternRequest : Codec WireNodePattern := payload "pattern" WireNodePattern.codec
def MatchPatternResponse : Codec (List WireMatchRow) := payload "rows" (.list WireMatchRow.codec)
def TraverseRequest : Codec WireTraversalPlan := payload "plan" WireTraversalPlan.codec
def TraverseResponse : Codec (List WireMatchRow) := payload "rows" (.list WireMatchRow.codec)
def SnapshotRequest : Codec Unit := emptyPayload
def SnapshotResponse : Codec WireOntology := payload "ontology" WireOntology.codec
def DiffRequest : Codec WireOntology := payload "other" WireOntology.codec
def DiffResponse : Codec WireStoreDiff := payload "diff" WireStoreDiff.codec

def CommitRequest : Codec (WireOntologyDelta × WireActivity) :=
  .record (.both (.required "delta" WireOntologyDelta.codec)
    (.required "activity" WireActivity.codec))

def CommitResponse : Codec ProvenanceId := payload "provenance_id" .id
def ProvenanceRequest : Codec Unit := emptyPayload
def ProvenanceResponse : Codec WireProvenanceLog := payload "log" WireProvenanceLog.codec

end Payloads

section

variable [SerdeJson] [Chrono] [JsonBytes] {σ : Type}

def encodeResponse {T : Type} (c : Codec T) (resp : RpcResponse T) : List UInt8 :=
  ((RpcResponse.codec c).ser resp).toVec

/-- Decode the envelope, run the operation and encode what it returns. -/
def run {Req Res : Type} (request : Codec Req) (response : Codec Res) (body : List UInt8)
    (f : Req → σ → Except String Res × σ) (store : σ) : List UInt8 × σ :=
  match JsonBytes.fromSlice body >>= (RpcEnvelope.codec request).de with
  | .error e => (encodeResponse emptyPayload (.err ("decode: " ++ SerdeJson.errorText e)), store)
  | .ok envelope =>
    match f envelope.params store with
    | (.ok value, store) => (encodeResponse response (.ok value), store)
    | (.error message, store) => (encodeResponse emptyPayload (.err message), store)

/-- What an operation returns, with its result converted and its error as a text. -/
def reply {α β : Type} (convert : α → β) (outcome : Except StoreError α × σ) :
    Except String β × σ :=
  ((outcome.1.map convert).mapError StoreError.text, outcome.2)

variable (store : OntologyStore σ)

def dispatch (methodName : String) (body : List UInt8) (s : σ) : List UInt8 × σ :=
  match methodName with
  | "upsert_node" =>
    run UpsertNodeRequest UpsertNodeResponse body (fun node s =>
      reply id (store.upsertNode node s)) s
  | "upsert_edge" =>
    run UpsertEdgeRequest UpsertEdgeResponse body (fun edge s =>
      reply id (store.upsertEdge edge s)) s
  | "upsert_axiom" =>
    run UpsertAxiomRequest UpsertAxiomResponse body (fun a s => reply id (store.upsertAxiom a s)) s
  | "get_node" => run GetNodeRequest GetNodeResponse body (fun i s => reply id (store.node i s)) s
  | "get_edge" => run GetEdgeRequest GetEdgeResponse body (fun i s => reply id (store.edge i s)) s
  | "match_pattern" =>
    run MatchPatternRequest MatchPatternResponse body (fun pattern s =>
      reply (List.map .ofRow) (store.matchPattern pattern.intoPattern s)) s
  | "traverse" =>
    run TraverseRequest TraverseResponse body (fun plan s =>
      reply (List.map .ofRow) (store.traverse plan.intoPlan s)) s
  | "snapshot" =>
    run SnapshotRequest SnapshotResponse body (fun _ s => reply .ofOntology (store.snapshot s)) s
  | "diff" =>
    run DiffRequest DiffResponse body (fun other s =>
      reply .ofDiff (store.diff other.intoOntology s)) s
  | "commit" =>
    run CommitRequest CommitResponse body (fun params s =>
      reply id (store.commitWithProvenance params.1.intoDelta params.2.intoActivity s)) s
  | "provenance" =>
    run ProvenanceRequest ProvenanceResponse body (fun _ s => reply .ofLog (store.provenance s)) s
  | other => (encodeResponse emptyPayload (.err ("unknown method: " ++ other)), s)

/-- What is left to the standard library and the HTTP client: the text of a request that cannot
be read and of a status, and the text of bytes that need not be UTF-8. -/
class HttpTexts where
  readError : RemoteError → String
  status : Nat → String
  lossy : List UInt8 → String

abbrev HttpTexts.plain : HttpTexts where
  readError _ := "connection closed"
  status _ := "error"
  lossy _ := ""

/-- A status and a body. -/
structure Response where
  status : Nat
  body : List UInt8

def errorResponse (status : Nat) (message : String) : Response :=
  ⟨status, encodeResponse emptyPayload (.err message)⟩

/-- Answer a request that was read. -/
def respond (request : ParsedRequest) (s : σ) : Response × σ :=
  if request.method ≠ "POST" then (errorResponse 405 "method not allowed", s)
  else match stripPrefix "/rpc/".toList request.path.toList with
    | none => (errorResponse 404 "unknown route", s)
    | some [] => (errorResponse 404 "unknown route", s)
    | some name =>
      let (body, s) := dispatch store (.ofList name) request.body s
      (⟨200, body⟩, s)

/-- Answer the request that arrives in the given reads. -/
def handleConnection [HttpTexts] (reads : List (List UInt8)) (s : σ) : Response × σ :=
  match readRequest reads with
  | .error e => (errorResponse 400 ("transport error: " ++ HttpTexts.readError e), s)
  | .ok request => respond store request s

end

end Remote

end AtomrOntology
