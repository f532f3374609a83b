import AtomrOntology.Logic.Runs
import AtomrOntology.Remote.Runs

/-!
# A store behind a server and the store itself

Calls may meet any store, in any state. Where the parameters of a call and what the store answers
come back from their documents, the call has the effect and the answer of the store itself. An
error of the store is answered as an error of the server.
-/

namespace AtomrOntology

namespace Remote

section

variable [SerdeJson] [Chrono] [JsonBytes] [HttpTexts] {σ : Type}

/-- A call arrives, its parameters come back from their document, and so does what the store answers
in a state. -/
structure ComesBack (store : OntologyStore σ) (s : σ) (w : StoreCall × List (List UInt8)) :
    Prop where
  arrives : Arrives w.2 (requestOf w.1)
  call : CallReturns w.1
  answer : ∀ a, (store.call s w.1).1 = .ok a → AnswerReturns a

/-- The state that a direct call leads to. -/
def directly (store : OntologyStore σ) (s : σ) (w : StoreCall × List (List UInt8)) : σ :=
  (store.call s w.1).2

variable {store : OntologyStore σ} {s : σ}

/-- A call that comes back is answered as the store answers it, and has its effect. -/
theorem ComesBack.overConnection_eq {w : StoreCall × List (List UInt8)}
    (h : ComesBack store s w) :
    overConnection store s w = (surfaced (store.call s w.1).1, (store.call s w.1).2) := by
  rw [Remote.overConnection_eq store s h.arrives]
  exact returned_call h.call h.answer

/-- Calls that come back in the states they find are answered as the store answers them, and lead to
the state that direct calls lead to. -/
theorem replies_direct {calls : List (StoreCall × List (List UInt8))}
    (h : EachCall (directly store) (ComesBack store) s calls) :
    replies (overConnection store) s calls =
        (replies store.call s (calls.map Prod.fst)).map surfaced ∧
      after (overConnection store) s calls = after store.call s (calls.map Prod.fst) := by
  induction calls generalizing s with
  | nil => exact ⟨rfl, rfl⟩
  | cons w calls ih =>
    obtain ⟨hfirst, hrest⟩ := eachCall_cons.mp h
    obtain ⟨hreplies, hafter⟩ := ih hrest
    constructor
    · rw [replies, hfirst.overConnection_eq, List.map_cons, replies, List.map_cons]
      exact congrArg _ hreplies
    · rw [after, hfirst.overConnection_eq, List.map_cons, after]
      exact hafter

end

private def snapshotBody : List UInt8 :=
  let _ := SerdeJson.plain
  requestBody "snapshot" SnapshotRequest ()

private theorem arrives_snapshot :
    let _ := SerdeJson.plain
    let _ := Chrono.plain
    let _ := JsonBytes.plain
    let _ := HttpTexts.plain
    Arrives [postBytes "snapshot" snapshotBody] (requestOf .snapshot) := by
  intro _ _ _ _
  have hlength : snapshotBody.length = 33 := by decide +kernel
  have hrequest : HasRequest (postBytes "snapshot" snapshotBody)
      (utf8 (postText "snapshot" snapshotBody.length)).length
      ⟨"POST", "/rpc/" ++ "snapshot", snapshotBody⟩ := by
    refine hasRequest_post ⟨by rw [postBytes], ?_⟩ ?_
    · decide +kernel
    · rw [hlength]
      refine ⟨_, "POST /rpc/snapshot HTTP/1.1".toList, ["content-length: 33".toList],
        ["HTTP/1.1".toList], [33], rfl, ?_, ?_, ?_, ?_⟩
      all_goals decide +kernel
  refine ⟨_, _, hrequest, ⟨List.append_nil _, ?_⟩, ?_⟩
  · decide +kernel
  · decide +kernel

/-- A node is stored and read back in a snapshot. -/
theorem replies_direct_snapshot :
    let _ := SerdeJson.plain
    let _ := Chrono.plain
    let _ := JsonBytes.plain
    let _ := HttpTexts.plain
    let calls := [(StoreCall.upsertNode organization, organizationReads),
      (.snapshot, [postBytes "snapshot" snapshotBody])]
    replies (overConnection MemStore.store) .empty calls =
        (replies MemStore.store.call .empty (calls.map Prod.fst)).map surfaced ∧
      after (overConnection MemStore.store) .empty calls =
        after MemStore.store.call .empty (calls.map Prod.fst) := by
  intro _ _ _ _ calls
  obtain ⟨hcarried, harrives⟩ := sendable_organization
  have hstored : CarriedOntology (Ontology.empty.upsertNode organization) :=
    CarriedOntology.empty.upsertNode fun v hv => by simp [organization] at hv
  refine replies_direct (eachCall_cons.mpr ⟨⟨harrives, hcarried.returns, ?_⟩, eachCall_cons.mpr
    ⟨⟨arrives_snapshot, trivial, ?_⟩, eachCall_nil⟩⟩)
  · intro a ha
    obtain rfl := Except.ok.inj ha
    trivial
  · intro a ha
    obtain rfl := Except.ok.inj ha
    exact CarriedAnswer.returns hstored

/-- A sensor whose reading is not a number. -/
private def sensor : Node :=
  ⟨.filled 1, none, ["Sensor"], (∅ : BTreeMap String PropertyValue).insert "reading" (.float .nan)⟩

private def noting : Activity := ⟨.filled 2, "noting", .epoch, none, none, ∅⟩

/-- What is not a number is written as null, which the server refuses where the store takes it, and
a failed save is reported in other words. -/
theorem server_is_not_transparent :
    let _ := SerdeJson.plain
    let _ := Chrono.plain
    let _ := JsonBytes.plain
    let _ := HttpTexts.plain
    (RemoteClient (respond MemStore.store)).call .empty (.upsertNode sensor) ≠
        MemStore.store.call .empty (.upsertNode sensor) ∧
      (RemoteClient (respond FallibleCheckpointer.fullDisk.store)).call (.empty, ())
          (.commitWithProvenance ⟨[], [], []⟩ noting) ≠
        FallibleCheckpointer.fullDisk.store.call (.empty, ())
          (.commitWithProvenance ⟨[], [], []⟩ noting) := by
  intro _ _ _ _
  constructor
  · intro hsame
    have hrefused : ((RpcEnvelope.codec UpsertNodeRequest).transmit ⟨"upsert_node", sensor⟩).isOk =
        false := by decide +kernel
    cases hx : (RpcEnvelope.codec UpsertNodeRequest).transmit ⟨"upsert_node", sensor⟩ with
    | ok _ =>
      rw [hx] at hrefused
      cases hrefused
    | error e =>
      have hcall : call (respond MemStore.store) "upsert_node" UpsertNodeRequest UpsertNodeResponse
          sensor .empty =
            (.error (.io ("server error: decode: " ++ SerdeJson.errorText e)), .empty) :=
        call_undecoded (f := fun node s => reply id (MemStore.store.upsertNode node s))
          (by decide) (fun _ _ => rfl) hx
      have hanswer : ((RemoteClient (respond MemStore.store)).call .empty (.upsertNode sensor)).1 =
          .error (.io ("server error: decode: " ++ SerdeJson.errorText e)) :=
        congrArg (fun res => res.1.map StoreAnswer.nodeId) hcall
      rw [hsame] at hanswer
      cases hanswer
  · intro hsame
    have hcarried : CarriedCall (.commitWithProvenance ⟨[], [], []⟩ noting) := by
      refine ⟨⟨by simp, by simp⟩, ?_⟩
      intro v hv
      simp [noting] at hv
    rw [returned_call hcarried.returns fun a ha => by cases ha] at hsame
    exact absurd (Except.error.inj (congrArg Prod.fst hsame)) (by decide +kernel)

end Remote

end AtomrOntology
