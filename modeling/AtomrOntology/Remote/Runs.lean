import AtomrOntology.Core.Settle
import AtomrOntology.Remote.Transparency

/-!
# Runs of calls over connections

Every call is a request on a connection of its own, whose bytes arrive in whatever reads.
A store whose values come back is used through connections as it is used directly, but for
the text of its errors, and ends in the same state.
-/

namespace AtomrOntology

namespace Remote

section

variable [SerdeJson]

/-- The empty ontology is carried. -/
theorem CarriedOntology.empty : CarriedOntology .empty where
  keyed := .empty
  nodes n hn := by simp [Ontology.empty] at hn
  edges e he := by simp [Ontology.empty] at he

/-- So is the empty log. -/
theorem CarriedLog.empty : CarriedLog .empty where
  keyed := .empty
  activities a ha := by simp [ProvenanceLog.empty] at ha
  entities e he := by simp [ProvenanceLog.empty] at he

/-- A carried node keeps an ontology carried. -/
theorem CarriedOntology.upsertNode {o : Ontology} (h : CarriedOntology o) {n : Node}
    (hn : CarriedProperties n.properties) : CarriedOntology (o.upsertNode n) where
  keyed := h.keyed.upsertNode n
  nodes m hm := by
    have hmem : m ∈ (BTreeMap.insertAll Node.id o.nodes [n]).vals := hm
    obtain hnew | hold := BTreeMap.mem_vals_of_insertAll hmem
    · exact List.mem_singleton.mp hnew ▸ hn
    · exact h.nodes m hold
  edges := h.edges

/-- So does a carried edge. -/
theorem CarriedOntology.upsertEdge {o : Ontology} (h : CarriedOntology o) {e : Edge}
    (he : CarriedProperties e.properties) : CarriedOntology (o.upsertEdge e) where
  keyed := h.keyed.upsertEdge e
  nodes := h.nodes
  edges f hf := by
    have hmem : f ∈ (BTreeMap.insertAll Edge.id o.edges [e]).vals := hf
    obtain hnew | hold := BTreeMap.mem_vals_of_insertAll hmem
    · exact List.mem_singleton.mp hnew ▸ he
    · exact h.edges f hold

/-- So does any axiom. -/
theorem CarriedOntology.upsertAxiom {o : Ontology} (h : CarriedOntology o) (a : Axiom) :
    CarriedOntology (o.upsertAxiom a) := ⟨h.keyed.upsertAxiom a, h.nodes, h.edges⟩

/-- So does a carried delta. -/
theorem CarriedOntology.applyDelta {o : Ontology} (h : CarriedOntology o) {delta : OntologyDelta}
    (hdelta : CarriedDelta delta) (p : ProvenanceId) : CarriedOntology (o.applyDelta delta p) where
  keyed := h.keyed.applyDelta delta p
  nodes n hn := by
    rw [Ontology.applyDelta_nodes] at hn
    obtain hnew | hold := BTreeMap.mem_vals_of_insertAll hn
    · exact hdelta.nodes n hnew
    · exact h.nodes n hold
  edges e he := by
    rw [Ontology.applyDelta_edges] at he
    obtain hnew | hold := BTreeMap.mem_vals_of_insertAll he
    · exact hdelta.edges e hnew
    · exact h.edges e hold

/-- A carried activity keeps a log carried. -/
theorem CarriedLog.recordActivity {l : ProvenanceLog} (h : CarriedLog l) {a : Activity}
    (ha : CarriedAttributes a.attributes) : CarriedLog (l.recordActivity a) where
  keyed := h.keyed.recordActivity a
  activities b hb := by
    have hmem : b ∈ (BTreeMap.insertAll Activity.id l.activities [a]).vals := hb
    obtain hnew | hold := BTreeMap.mem_vals_of_insertAll hmem
    · exact List.mem_singleton.mp hnew ▸ ha
    · exact h.activities b hold
  entities := h.entities

/-- What a store holds comes back. -/
structure CarriedState (o : Ontology) (l : ProvenanceLog) : Prop where
  ontology : CarriedOntology o
  provenance : CarriedLog l

theorem CarriedState.empty : CarriedState .empty .empty := ⟨.empty, .empty⟩

/-- Answers read off a state that comes back come back, and calls that come back keep it so. -/
structure Carries {σ : Type} [Chrono] (P : σ → Prop) (store : OntologyStore σ) : Prop where
  preserved : ∀ s k, P s → CarriedCall k → P (store.call s k).2
  answers : ∀ s k a, P s → CarriedCall k → (store.call s k).1 = .ok a → CarriedAnswer a

end

end Remote

/-- `OntologyStore for MemStore`. -/
def MemStore.store : OntologyStore MemStore where
  upsertNode node s := (.ok node.id, { s with ontology := s.ontology.upsertNode node })
  upsertEdge edge s := (.ok edge.id, { s with ontology := s.ontology.upsertEdge edge })
  upsertAxiom a s := (.ok (), { s with ontology := s.ontology.upsertAxiom a })
  node id s := (.ok s.ontology.nodes[id]?, s)
  edge id s := (.ok s.ontology.edges[id]?, s)
  matchPattern pattern s := (.ok (AtomrOntology.matchPattern s.ontology pattern), s)
  traverse plan s := (.ok (AtomrOntology.traverse s.ontology plan), s)
  snapshot s := (.ok s.ontology, s)
  diff other s := (.ok (s.ontology.diff other), s)
  commitWithProvenance delta activity s := (.ok activity.id, s.commitWithProvenance delta activity)
  provenance s := (.ok s.provenance, s)

/-- The store in memory answers as its model. -/
theorem MemStore.store_call : MemStore.store.call = MemStore.call := by
  funext s k
  cases k <;> rfl

namespace FallibleCheckpointer

variable (c : FallibleCheckpointer)

/-- `OntologyStore for PersistentStore`. -/
def store : OntologyStore (PersistentState × c.Medium) where
  upsertNode node s := (.ok node.id, { s.1 with ontology := s.1.ontology.upsertNode node }, s.2)
  upsertEdge edge s := (.ok edge.id, { s.1 with ontology := s.1.ontology.upsertEdge edge }, s.2)
  upsertAxiom a s := (.ok (), { s.1 with ontology := s.1.ontology.upsertAxiom a }, s.2)
  node id s := (.ok s.1.ontology.nodes[id]?, s)
  edge id s := (.ok s.1.ontology.edges[id]?, s)
  matchPattern pattern s := (.ok (Persist.matchPattern s.1.ontology pattern), s)
  traverse plan s := (.ok (Persist.traverse s.1.ontology plan), s)
  snapshot s := (.ok s.1.ontology, s)
  diff other s := (.ok (s.1.ontology.diff other), s)
  commitWithProvenance delta activity s := c.commitWithProvenance s.1 s.2 delta activity
  provenance s := (.ok s.1.provenance, s)

/-- The persistent store answers as its model. -/
theorem store_call : c.store.call = c.call := by
  funext s k
  cases k <;> rfl

end FallibleCheckpointer

namespace Remote

section

variable [SerdeJson] [Chrono]

/-- A pattern is matched remotely as it is matched locally exactly if its document, within an
envelope, is not nested too deeply for the reader. -/
theorem remote_matchPattern_iff [JsonBytes] [HttpTexts] (s : MemStore) {pattern : NodePattern}
    (hread : (WireNodePattern.ofPattern pattern).Readable) :
    (RemoteClient (respond MemStore.store)).call s (.matchPattern pattern) =
        MemStore.call s (.matchPattern pattern) ↔
      WireNodePattern.codec.Fits 125 (.ofPattern pattern) := by
  constructor
  · intro hsame
    by_contra hdeep
    have hrefused : ∀ y, (RpcEnvelope.codec MatchPatternRequest).transmit
        ⟨"match_pattern", .ofPattern pattern⟩ ≠ .ok y := by
      intro y hy
      have hfits := (Codec.transmit_eq_ok.mp hy).1
      simp [RpcEnvelope.codec, MatchPatternRequest, payload] at hfits
      exact hdeep hfits
    cases hx : (RpcEnvelope.codec MatchPatternRequest).transmit
        ⟨"match_pattern", .ofPattern pattern⟩ with
    | ok y => exact hrefused y hx
    | error e =>
      have hcall : call (respond MemStore.store) "match_pattern" MatchPatternRequest
          MatchPatternResponse (.ofPattern pattern) s =
            (.error (.io ("server error: decode: " ++ SerdeJson.errorText e)), s) :=
        call_undecoded (f := fun pattern s =>
            reply (List.map WireMatchRow.ofRow) (MemStore.store.matchPattern pattern.intoPattern s))
          (by decide) (fun _ _ => rfl) hx
      have hanswer : ((RemoteClient (respond MemStore.store)).call s (.matchPattern pattern)).1 =
          .error (.io ("server error: decode: " ++ SerdeJson.errorText e)) :=
        congrArg (fun res => (res.1.map (List.map WireMatchRow.intoRow)).map StoreAnswer.rows) hcall
      rw [hsame] at hanswer
      cases hanswer
  · intro hfits
    have hanswer :
      ∀ a, (MemStore.store.call s (.matchPattern pattern)).1 = .ok a → CarriedAnswer a := by
      intro a ha
      obtain rfl := Except.ok.inj ha
      trivial
    have hcarried : CarriedCall (.matchPattern pattern) := CarriedPattern.mk hfits hread
    rw [remote_call hcarried hanswer, MemStore.store_call]
    rfl

omit [SerdeJson] [Chrono] in
/-- Any node, and an alternative below it. -/
theorem remote_matchPattern_or :
    let _ := SerdeJson.plain
    let _ := Chrono.plain
    let _ := JsonBytes.plain
    let _ := HttpTexts.plain
    let pattern : NodePattern := { NodePattern.any with or := [.any] }
    (RemoteClient (respond MemStore.store)).call .empty (.matchPattern pattern) =
        MemStore.call .empty (.matchPattern pattern) ↔
      WireNodePattern.codec.Fits 125 (.ofPattern pattern) := by
  intro _ _ _ _ pattern
  refine remote_matchPattern_iff .empty ?_
  simp [pattern, WireNodePattern.ofPattern, WireNodePattern.ofPatterns, NodePattern.any,
    WireNodePattern.Readable, WireNodePattern.AllReadable]

/-- The reads are those of a stream that starts with the request, with headers within the limit. -/
def Arrives (reads : List (List UInt8)) (request : ParsedRequest) : Prop :=
  ∃ bytes headerEnd, HasRequest bytes headerEnd request ∧ Reads bytes reads ∧
    headerEnd + 4 ≤ 64 * 1024 + 1

omit [SerdeJson] [Chrono] in
/-- A request that arrives is read. -/
theorem Arrives.read {reads : List (List UInt8)} {request : ParsedRequest}
    (h : Arrives reads request) : readRequest reads = .ok request := by
  obtain ⟨bytes, headerEnd, hrequest, hreads, hlimit⟩ := h
  exact (readRequest_eq_ok_iff hreads).mpr ⟨headerEnd, hrequest, clears_of_goal_le hlimit⟩

variable [JsonBytes] [HttpTexts] {σ : Type}

/-- A call whose request arrives in the given reads. -/
def overConnection (store : OntologyStore σ) (s : σ) (w : StoreCall × List (List UInt8)) :
    Except StoreError StoreAnswer × σ :=
  (RemoteClient fun _ => handleConnection store w.2).call s w.1

/-- However its bytes are cut into reads, a request that arrives is answered alike. -/
theorem overConnection_eq (store : OntologyStore σ) (s : σ) {w : StoreCall × List (List UInt8)}
    (h : Arrives w.2 (requestOf w.1)) :
    overConnection store s w = (RemoteClient (respond store)).call s w.1 := by
  have hserved : handleConnection store w.2 s = respond store (requestOf w.1) s := by
    rw [handleConnection, h.read]
  rw [overConnection, client_call, client_call, hserved]

/-- A call that comes back and arrives. -/
def Sendable (w : StoreCall × List (List UInt8)) : Prop :=
  CarriedCall w.1 ∧ Arrives w.2 (requestOf w.1)

end

/-- The headers of a request. -/
def postText (methodName : String) (contentLength : Nat) : String :=
  .ofList ("POST /rpc/".toList ++ methodName.toList ++ " HTTP/1.1\r\ncontent-length: ".toList ++
    (toString contentLength).toList)

def postBytes (methodName : String) (body : List UInt8) : List UInt8 :=
  utf8 (postText methodName body.length) ++ headerTerminator ++ body

def organization : Node := ⟨.filled 1, none, ["Organization"], ∅⟩

def organizationBody : List UInt8 :=
  let _ := SerdeJson.plain
  let _ := Chrono.plain
  requestBody "upsert_node" UpsertNodeRequest organization

/-- The bytes of a posted body hold its request. -/
theorem hasRequest_post {m : String} {body : List UInt8}
    (hends : EndsHead (postBytes m body) (utf8 (postText m body.length)) body)
    (hannounces : Announces (utf8 (postText m body.length)) "POST" ("/rpc/" ++ m) body.length) :
    HasRequest (postBytes m body) (utf8 (postText m body.length)).length
      ⟨"POST", "/rpc/" ++ m, body⟩ := ⟨_, _, rfl, hends, hannounces, List.prefix_rfl⟩

theorem hasRequest_organization : HasRequest (postBytes "upsert_node" organizationBody)
    (utf8 (postText "upsert_node" organizationBody.length)).length
    ⟨"POST", "/rpc/" ++ "upsert_node", organizationBody⟩ := by
  have hlength : organizationBody.length = 167 := by decide +kernel
  refine hasRequest_post ⟨by rw [postBytes], ?_⟩ ?_
  · decide +kernel
  · rw [hlength]
    refine ⟨_, "POST /rpc/upsert_node HTTP/1.1".toList, ["content-length: 167".toList],
      ["HTTP/1.1".toList], [167], rfl, ?_, ?_, ?_, ?_⟩
    all_goals decide +kernel

/-- The bytes of the request in two reads. -/
def organizationReads : List (List UInt8) :=
  [(postBytes "upsert_node" organizationBody).take 60,
    (postBytes "upsert_node" organizationBody).drop 60]

theorem sendable_organization :
    let _ := SerdeJson.plain
    let _ := Chrono.plain
    let _ := JsonBytes.plain
    let _ := HttpTexts.plain
    Sendable (.upsertNode organization, organizationReads) := by
  intro _ _ _ _
  refine ⟨fun v hv => ?_, _, _, hasRequest_organization, ⟨?_, ?_⟩, ?_⟩
  · simp [organization] at hv
  · exact (congrArg ((postBytes "upsert_node" organizationBody).take 60 ++ ·)
      (List.append_nil _)).trans
      (List.take_append_drop 60 _)
  · decide +kernel
  · decide +kernel

end Remote

end AtomrOntology
