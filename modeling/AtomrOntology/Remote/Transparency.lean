import AtomrOntology.Remote.Carried

/-!
# What a client sees of a remote store

A call whose parameters and result come back from their documents has the effect and the
answer of the local call. A store in memory that only ever was given such values answers
every such call with such values, so a client cannot tell it from a local one.
-/

namespace AtomrOntology

namespace Remote

section

variable [SerdeJson] {α : Type} {c : Codec α} {x y : α}

theorem transmit_envelope {m : String} (h : Carried c x) :
    (RpcEnvelope.codec c).transmit ⟨m, x⟩ = .ok ⟨m, x⟩ := by
  refine Codec.transmit_eq_ok.mpr ⟨?_, ?_⟩
  · simp [RpcEnvelope.codec, h.fits]
  · simp [RpcEnvelope.codec, h.survives]

theorem transmit_ok (h : Carried c x) (hne : c.ser x ≠ .null) :
    (RpcResponse.codec c).transmit (.ok x) = .ok (.ok x) := by
  refine Codec.transmit_eq_ok.mpr ⟨?_, ?_⟩
  · simp [RpcResponse.codec, RpcResponse.ok, h.fits]
  · simp [RpcResponse.codec, RpcResponse.ok, h.survives, hne]

/-- An error is read whatever result the client expects. -/
theorem transmit_err {β : Type} (c : Codec α) (d : Codec β) (message : String) :
    ((RpcResponse.codec c).ser (.err message)).reparse >>= (RpcResponse.codec d).de =
      .ok (.err message) := by
  have h : (RpcResponse.codec d).transmit (.err message) = .ok (.err message) := by
    refine Codec.transmit_eq_ok.mpr ⟨?_, ?_⟩
    · simp [RpcResponse.codec, RpcResponse.err]
    · simp [RpcResponse.codec, RpcResponse.err]
  exact h

end

section

variable [SerdeJson] [Chrono] [JsonBytes] [HttpTexts] {σ Req Res : Type}

omit [Chrono] [HttpTexts] in
@[simp] theorem fromSlice_toVec (j : Json) : JsonBytes.fromSlice j.toVec = j.reparse :=
  JsonBytes.fromSlice_text j

omit [HttpTexts] in
/-- A post to a method is dispatched to it. -/
theorem respond_post (store : OntologyStore σ) {m : String} (hm : m ≠ "") (body : List UInt8)
    (s : σ) :
    respond store ⟨"POST", "/rpc/" ++ m, body⟩ s =
      (⟨200, (dispatch store m body s).1⟩, (dispatch store m body s).2) := by
  have hstrip : stripPrefix "/rpc/".toList ("/rpc/" ++ m).toList = some m.toList := by
    rw [stripPrefix, String.toList_append, if_pos (List.prefix_append _ _), List.drop_left]
  have hne : m.toList ≠ [] := by
    intro h
    exact hm (String.toList_eq_nil_iff.mp h)
  rw [respond, if_neg (by simp), hstrip]
  cases hcs : m.toList with
  | nil => exact absurd hcs hne
  | cons c cs =>
    have hof : String.ofList (c :: cs) = m := by rw [← hcs, String.ofList_toList]
    simp only [hof]

variable {request : Codec Req} {response : Codec Res} {f : Req → σ → Except String Res × σ}
  {store : OntologyStore σ} {m : String} {x : Req} {s : σ}

/-- What a call returns that the server answers by running an operation. -/
theorem call_eq (hm : m ≠ "")
    (hd : ∀ body s, dispatch store m body s = run request response body f s) :
    call (respond store) m request response x s =
      ((readResponse m response
        ⟨200, (run request response (requestBody m request x) f s).1⟩).mapError
        intoStoreErr, (run request response (requestBody m request x) f s).2) := by
  rw [call, respond_post store hm, hd]

/-- Parameters that are not decoded do not reach the store. -/
theorem call_undecoded (hm : m ≠ "")
    (hd : ∀ body s, dispatch store m body s = run request response body f s) {e : Json.DeError}
    (hx : (RpcEnvelope.codec request).transmit ⟨m, x⟩ = .error e) :
    call (respond store) m request response x s =
      (.error (.io ("server error: decode: " ++ SerdeJson.errorText e)), s) := by
  have hread : JsonBytes.fromSlice (requestBody m request x) >>= (RpcEnvelope.codec request).de =
      .error e := by
    rw [requestBody, fromSlice_toVec]
    exact hx
  have hrun : run request response (requestBody m request x) f s =
      (encodeResponse emptyPayload (.err ("decode: " ++ SerdeJson.errorText e)), s) := by
    rw [run, hread]
  rw [call_eq hm hd, hrun, readResponse, if_neg (by simp), encodeResponse, fromSlice_toVec,
    transmit_err]
  rfl

/-- Parameters and a result that come back make no difference between a call and the operation,
but for the text of an error. -/
theorem call_carried (hm : m ≠ "")
    (hd : ∀ body s, dispatch store m body s = run request response body f s)
    (hx : Carried request x)
    (hy : ∀ y, (f x s).1 = .ok y → Carried response y ∧ response.ser y ≠ .null) :
    call (respond store) m request response x s =
      ((f x s).1.mapError fun message => .io ("server error: " ++ message), (f x s).2) := by
  have hread : JsonBytes.fromSlice (requestBody m request x) >>= (RpcEnvelope.codec request).de =
      .ok ⟨m, x⟩ := by
    rw [requestBody, fromSlice_toVec]
    exact transmit_envelope hx
  rw [call_eq hm hd, run, hread]
  cases hf : f x s with
  | mk outcome s' =>
    rw [hf] at hy
    cases outcome with
    | ok y =>
      obtain ⟨hcarried, hne⟩ := hy y rfl
      have hback : JsonBytes.fromSlice (encodeResponse response (.ok y)) >>=
          (RpcResponse.codec response).de = .ok (.ok y) := by
        rw [encodeResponse, fromSlice_toVec]
        exact transmit_ok hcarried hne
      simp only [readResponse, hf, hback]
      rfl
    | error message =>
      have hback : JsonBytes.fromSlice (encodeResponse emptyPayload (.err message)) >>=
          (RpcResponse.codec response).de = .ok (.err message) := by
        rw [encodeResponse, fromSlice_toVec]
        exact transmit_err _ _ _
      simp only [readResponse, hf, hback]
      rfl

/-- An error of a remote store, as the client reports it. -/
def surfaced {α : Type} (outcome : Except StoreError α) : Except StoreError α :=
  outcome.mapError fun e => .io ("server error: " ++ e.text)

/-- A call whose result is converted for the response and back. -/
theorem call_reply {α : Type} (hm : m ≠ "")
    (hd : ∀ body s, dispatch store m body s = run request response body f s)
    (hx : Carried request x)
    (convert : α → Res) (back : Res → α) (answer : α → StoreAnswer)
    {outcome : Except StoreError α × σ}
    (hf : f x s = reply convert outcome)
    (hy : ∀ a, outcome.1 = .ok a →
      Carried response (convert a) ∧ response.ser (convert a) ≠ .null ∧ back (convert a) = a) :
    answered answer ((call (respond store) m request response x s).1.map back,
        (call (respond store) m request response x s).2) =
      (surfaced (answered answer outcome).1, (answered answer outcome).2) := by
  have hresult : ∀ y, (f x s).1 = .ok y → Carried response y ∧ response.ser y ≠ .null := by
    intro y hy'
    obtain ⟨outcome, s'⟩ := outcome
    rw [hf] at hy'
    cases outcome with
    | error e => cases hy'
    | ok a =>
      obtain rfl := Except.ok.inj hy'
      exact ⟨(hy a rfl).1, (hy a rfl).2.1⟩
  rw [call_carried hm hd hx hresult, hf]
  obtain ⟨outcome, s'⟩ := outcome
  cases outcome with
  | error e => rfl
  | ok a =>
    have hback : back (convert a) = a := (hy a rfl).2.2
    simp [answered, reply, surfaced, Except.map, Except.mapError, hback]

/-- A call whose result is not converted. -/
theorem call_id {answer : Res → StoreAnswer} (hm : m ≠ "")
    {outcome : Except StoreError Res × σ}
    (hd : ∀ body s, dispatch store m body s = run request response body f s)
    (hx : Carried request x)
    (hf : f x s = reply id outcome)
    (hy : ∀ a, outcome.1 = .ok a → Carried response a ∧ response.ser a ≠ .null) :
    answered answer (call (respond store) m request response x s) =
      (surfaced (answered answer outcome).1, (answered answer outcome).2) := by
  have hreply := call_reply hm hd hx id id answer hf fun a ha => ⟨(hy a ha).1, (hy a ha).2, rfl⟩
  rwa [Except.map_id] at hreply

variable {α : Type} {convert : α → StoreAnswer} {outcome : Except StoreError α × σ}

omit [SerdeJson] [Chrono] [JsonBytes] [HttpTexts] in
theorem rows_back (rows : List MatchRow) :
    (rows.map WireMatchRow.ofRow).map WireMatchRow.intoRow = rows := by simp [Function.comp_def]

omit [SerdeJson] [Chrono] [JsonBytes] [HttpTexts] in
theorem answered_ok {a : α} (h : outcome.1 = .ok a) :
    (answered convert outcome).1 = .ok (convert a) := by
  rw [answered, h]
  rfl

omit [JsonBytes] [HttpTexts] in
/-- A node or none comes back in a response if the node does. -/
theorem carried_getNode {node : Option Node}
    (h : ∀ n ∈ node, CarriedProperties n.properties) : Carried GetNodeResponse node :=
  carried_optional fun n hn => ⟨Node.survives_codec.mpr (h n hn).readable,
    (h n hn).fits_node (by omega), by simp [Node.codec, Codec.record]⟩

omit [JsonBytes] [HttpTexts] in
/-- So does an edge or none. -/
theorem carried_getEdge {edge : Option Edge}
    (h : ∀ e ∈ edge, CarriedProperties e.properties) : Carried GetEdgeResponse edge :=
  carried_optional fun e he => ⟨Edge.survives_codec.mpr (h e he).readable,
    (h e he).fits_edge (by omega), by simp [Edge.codec, Codec.record]⟩

/-- The parameters of a call come back from the document of its request. -/
def CallReturns : StoreCall → Prop
  | .upsertNode node => Carried UpsertNodeRequest node
  | .upsertEdge edge => Carried UpsertEdgeRequest edge
  | .matchPattern pattern => Carried MatchPatternRequest (.ofPattern pattern)
  | .traverse plan => Carried TraverseRequest (.ofPlan plan)
  | .diff other => Carried DiffRequest (.ofOntology other) ∧ other.Keyed
  | .commitWithProvenance delta activity =>
    Carried CommitRequest (.ofDelta delta, .ofActivity activity)
  | _ => True

/-- An answer comes back from the document of its response. -/
def AnswerReturns : StoreAnswer → Prop
  | .node node => Carried GetNodeResponse node
  | .edge edge => Carried GetEdgeResponse edge
  | .ontology o => Carried SnapshotResponse (.ofOntology o) ∧ o.Keyed
  | .provenance log => Carried ProvenanceResponse (.ofLog log) ∧ log.Keyed
  | _ => True

omit [JsonBytes] [HttpTexts] in
/-- The parameters of a carried call come back. -/
theorem CarriedCall.returns {k : StoreCall} (hk : CarriedCall k) : CallReturns k := by
  cases k with
  | upsertNode node =>
    exact carried_payload (Node.survives_codec.mpr hk.readable) (hk.fits_node (by omega))
  | upsertEdge edge =>
    exact carried_payload (Edge.survives_codec.mpr hk.readable) (hk.fits_edge (by omega))
  | matchPattern pattern =>
    have hpattern : CarriedPattern 125 pattern := hk
    exact carried_payload (hpattern.survives (by omega)) hpattern.fits
  | traverse plan =>
    have hplan : CarriedPlan plan := hk
    exact carried_wire hplan.wire
  | diff other =>
    have hother : CarriedOntology other := hk
    exact ⟨carried_wire hother.wire, hother.keyed⟩
  | commitWithProvenance delta activity =>
    obtain ⟨hdelta, hactivity⟩ := hk
    exact carried_commit hdelta.wire hactivity.activity
  | _ => trivial

omit [JsonBytes] [HttpTexts] in
/-- A carried answer comes back. -/
theorem CarriedAnswer.returns {a : StoreAnswer} (ha : CarriedAnswer a) : AnswerReturns a := by
  cases a with
  | node node => exact carried_getNode ha
  | edge edge => exact carried_getEdge ha
  | ontology o =>
    have hontology : CarriedOntology o := ha
    exact ⟨carried_wire hontology.wire, hontology.keyed⟩
  | provenance log =>
    have hlog : CarriedLog log := ha
    exact ⟨carried_wire hlog.wire, hlog.keyed⟩
  | _ => trivial

/-- A call whose parameters and answer come back is a call of the store behind the server. -/
theorem returned_call {k : StoreCall} (hk : CallReturns k)
    (hanswer : ∀ a, (store.call s k).1 = .ok a → AnswerReturns a) :
    (RemoteClient (respond store)).call s k =
    (surfaced (store.call s k).1, (store.call s k).2) := by
  cases k with
  | upsertNode node =>
    exact call_id (m := "upsert_node") (f := fun node s => reply id (store.upsertNode node s))
      (by decide) (fun _ _ => rfl) hk rfl fun a _ =>
      ⟨carried_payload (by simp) (by simp), payload_ne_null⟩
  | upsertEdge edge =>
    exact call_id (m := "upsert_edge") (f := fun edge s => reply id (store.upsertEdge edge s))
      (by decide) (fun _ _ => rfl) hk rfl fun a _ =>
      ⟨carried_payload (by simp) (by simp), payload_ne_null⟩
  | upsertAxiom a =>
    have hx : Carried UpsertAxiomRequest a :=
      carried_payload (by simp) (axiomDocument_fits a (by omega))
    exact call_id (m := "upsert_axiom") (f := fun a s => reply id (store.upsertAxiom a s))
      (by decide) (fun _ _ => rfl) hx rfl fun a _ =>
      ⟨carried_empty, emptyPayload_ne_null⟩
  | node i =>
    have hx : Carried GetNodeRequest i := carried_payload (by simp) (by simp)
    exact call_id (m := "get_node") (f := fun i s => reply id (store.node i s))
      (by decide) (fun _ _ => rfl) hx rfl fun a ha =>
      ⟨hanswer (.node a) (answered_ok ha), by simp [GetNodeResponse, Codec.record]⟩
  | edge i =>
    have hx : Carried GetEdgeRequest i := carried_payload (by simp) (by simp)
    exact call_id (m := "get_edge") (f := fun i s => reply id (store.edge i s))
      (by decide) (fun _ _ => rfl) hx rfl fun a ha =>
      ⟨hanswer (.edge a) (answered_ok ha), by simp [GetEdgeResponse, Codec.record]⟩
  | matchPattern pattern =>
    have hf : reply (List.map WireMatchRow.ofRow)
        (store.matchPattern (WireNodePattern.ofPattern pattern).intoPattern s) =
        reply (List.map WireMatchRow.ofRow) (store.matchPattern pattern s) := by
      rw [WireNodePattern.into_of]
    exact call_reply (m := "match_pattern")
      (f := fun pattern s => reply (List.map .ofRow) (store.matchPattern pattern.intoPattern s))
      (by decide) (fun _ _ => rfl) hk _ (List.map WireMatchRow.intoRow) .rows hf fun rows _ =>
        ⟨carried_wire (carried_rows rows), payload_ne_null, rows_back rows⟩
  | traverse plan =>
    have hf : reply (List.map WireMatchRow.ofRow)
        (store.traverse (WireTraversalPlan.ofPlan plan).intoPlan s) =
        reply (List.map WireMatchRow.ofRow) (store.traverse plan s) := by
      rw [WireTraversalPlan.into_of]
    exact call_reply (m := "traverse")
      (f := fun plan s => reply (List.map .ofRow) (store.traverse plan.intoPlan s))
      (by decide) (fun _ _ => rfl) hk _ (List.map WireMatchRow.intoRow) .rows hf fun rows _ =>
        ⟨carried_wire (carried_rows rows), payload_ne_null, rows_back rows⟩
  | snapshot =>
    refine call_reply (m := "snapshot") (f := fun _ s => reply .ofOntology (store.snapshot s))
      (by decide) (fun _ _ => rfl) carried_empty _ WireOntology.intoOntology .ontology rfl fun o
        ho => ?_
    obtain ⟨hcarried, hkeyed⟩ := hanswer (.ontology o) (answered_ok ho)
    exact ⟨hcarried, payload_ne_null, WireOntology.into_of hkeyed⟩
  | diff other =>
    obtain ⟨hx, hkeyed⟩ := hk
    have hf :
      reply WireStoreDiff.ofDiff (store.diff (WireOntology.ofOntology other).intoOntology s) =
        reply .ofDiff (store.diff other s) := by rw [WireOntology.into_of hkeyed]
    exact call_reply (m := "diff")
      (f := fun other s => reply .ofDiff (store.diff other.intoOntology s))
      (by decide) (fun _ _ => rfl) hx _ WireStoreDiff.intoDiff .diff hf fun d _ =>
        ⟨carried_payload (by simp [WireStoreDiff.codec]) (by simp [WireStoreDiff.codec]),
          payload_ne_null, rfl⟩
  | commitWithProvenance delta activity =>
    exact call_id (m := "commit")
      (f := fun params s =>
        reply id (store.commitWithProvenance params.1.intoDelta params.2.intoActivity s))
      (by decide) (fun _ _ => rfl) hk rfl fun a _ =>
        ⟨carried_payload (by simp) (by simp), payload_ne_null⟩
  | provenance =>
    refine call_reply (m := "provenance") (f := fun _ s => reply .ofLog (store.provenance s))
      (by decide) (fun _ _ => rfl) carried_empty _ WireProvenanceLog.intoLog .provenance rfl
      fun l hl => ?_
    obtain ⟨hcarried, hkeyed⟩ := hanswer (.provenance l) (answered_ok hl)
    exact ⟨hcarried, payload_ne_null, WireProvenanceLog.into_of hkeyed⟩

/-- Carried calls with carried answers come back. -/
theorem remote_call {k : StoreCall} (hk : CarriedCall k)
    (hanswer : ∀ a, (store.call s k).1 = .ok a → CarriedAnswer a) :
    (RemoteClient (respond store)).call s k =
    (surfaced (store.call s k).1, (store.call s k).2) :=
  returned_call hk.returns fun a ha => (hanswer a ha).returns

end

end Remote

end AtomrOntology
