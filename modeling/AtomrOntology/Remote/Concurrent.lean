import AtomrOntology.Remote.Runs

/-!
# Concurrent calls

Clients post requests, the server answers them one at a time, and a client receives the
answer or has given up before. Whatever the order of these steps, the store is in the state
that the answered calls lead to one after the other, and what a client receives is what its
call was answered in that order. A call is answered once, between its request and its
answer, and a client that gives up cannot tell whether it was.
-/

namespace AtomrOntology

namespace Remote

/-- A call on a connection of its own: what the server wrote, and whether the client still waits. -/
structure Session where
  call : StoreCall
  response : Option Response
  waiting : Bool

/-- The store behind the server and the calls that were made. -/
structure Network (σ : Type) where
  store : σ
  sessions : Nat → Option Session

/-- No call was made. -/
def Network.start {σ : Type} (s : σ) : Network σ := ⟨s, fun _ => none⟩

/-- A step of a call, or a connection that no call uses. -/
inductive Event where
  | post (session : Nat) (call : StoreCall)
  | serve (session : Nat) (call : StoreCall)
  | receive (session : Nat) (answer : Except StoreError StoreAnswer)
  | giveUp (session : Nat)
  | stray

/-- The call a step answers. -/
def Event.served : Event → Option StoreCall
  | .serve _ call => some call
  | _ => none

/-- The calls that were answered, in order. -/
def served (events : List Event) : List StoreCall := events.filterMap Event.served

theorem served_append (events others : List Event) :
    served (events ++ others) = served events ++ served others := List.filterMap_append

section

variable {σ : Type} {store : OntologyStore σ} {s : σ} {events : List Event} {n n' : Network σ}
  {e : Event}
  {i : Nat}

/-- The state the calls that were answered lead to, one after the other. -/
abbrev stateAfter (store : OntologyStore σ) (s : σ) (events : List Event) : σ :=
  after store.call s (served events)

/-- What a client reads is what the call was answered between two steps of the run. -/
def AnsweredIn (store : OntologyStore σ) (s : σ) (events : List Event) (i : Nat) (call : StoreCall)
    (answer : Except StoreError StoreAnswer) : Prop :=
  ∃ before rest, events = before ++ .serve i call :: rest ∧
    answer = surfaced (store.call (stateAfter store s before) call).1

/-- The steps of a run, seen from the calls: the store is where the answered calls lead in their
order, a call is answered once and after it was posted, and a client receives its own answer. -/
structure Linearized (store : OntologyStore σ) (s : σ) (events : List Event) (n : Network σ) :
    Prop where
  settled : n.store = stateAfter store s events
  posted : ∀ before i call rest, events = before ++ .serve i call :: rest →
    .post i call ∈ before ∧ ∀ k, .serve i k ∉ before
  received : ∀ before i answer rest, events = before ++ .receive i answer :: rest →
    ∃ call, AnsweredIn store s before i call answer

/-- A step of a longer run is its last one or one of the run before. -/
theorem split_concat {before rest : List Event} {x : Event}
    (h : events ++ [e] = before ++ x :: rest) :
    (before = events ∧ x = e) ∨ ∃ rest', events = before ++ x :: rest' := by
  rcases List.eq_nil_or_concat rest with rfl | ⟨rest, y, rfl⟩
  · obtain ⟨hbefore, hlast⟩ := List.append_inj' h rfl
    exact Or.inl ⟨hbefore.symm, (List.singleton_inj.mp hlast).symm⟩
  · rw [List.concat_eq_append, ← List.cons_append, ← List.append_assoc] at h
    exact Or.inr ⟨rest, (List.append_inj' h rfl).1⟩

theorem AnsweredIn.concat {call : StoreCall} {answer : Except StoreError StoreAnswer}
    (h : AnsweredIn store s events i call answer) (e : Event) :
    AnsweredIn store s (events ++ [e]) i call answer := by
  obtain ⟨before, rest, rfl, hanswer⟩ := h
  exact ⟨before, rest ++ [e], by simp, hanswer⟩

theorem stateAfter_concat_of_none (he : e.served = none) :
    stateAfter store s (events ++ [e]) = stateAfter store s events := by
  have hserved : served (events ++ [e]) = served events := by simp [served, he]
  rw [stateAfter, hserved]

/-- A step that answers no call keeps the order of the calls. -/
theorem Linearized.concat (h : Linearized store s events n) (he : e.served = none)
    (hstore : n'.store = n.store)
    (hreceive : ∀ i answer, e = .receive i answer → ∃ call,
      AnsweredIn store s events i call answer) :
    Linearized store s (events ++ [e]) n' where
  settled := by rw [hstore, h.settled, stateAfter_concat_of_none he]
  posted before i call rest hsplit := by
    obtain ⟨rfl, rfl⟩ | ⟨rest', hevents⟩ := split_concat hsplit
    · cases he
    · exact h.posted before i call rest' hevents
  received before i answer rest hsplit := by
    obtain ⟨rfl, rfl⟩ | ⟨rest', hevents⟩ := split_concat hsplit
    · exact hreceive i answer rfl
    · exact h.received before i answer rest' hevents

/-- Answering a call that was posted and not answered before puts it last. -/
theorem Linearized.serve {call : StoreCall} (h : Linearized store s events n)
    (hstore : n'.store = (store.call n.store call).2) (hpost : .post i call ∈ events)
    (hfirst : ∀ k, .serve i k ∉ events) : Linearized store s (events ++ [.serve i call]) n' where
  settled := by
    rw [hstore, h.settled, stateAfter, stateAfter, served_append]
    exact (after_concat store.call s (served events) call).symm
  posted before j k rest hsplit := by
    obtain ⟨rfl, hlast⟩ | ⟨rest', hevents⟩ := split_concat hsplit
    · obtain ⟨rfl, rfl⟩ := Event.serve.inj hlast
      exact ⟨hpost, hfirst⟩
    · exact h.posted before j k rest' hevents
  received before j answer rest hsplit := by
    obtain ⟨rfl, hlast⟩ | ⟨rest', hevents⟩ := split_concat hsplit
    · cases hlast
    · exact h.received before j answer rest' hevents

end

/-- The names of the methods. -/
def methods : List String :=
  ["upsert_node", "upsert_edge", "upsert_axiom", "get_node", "get_edge", "match_pattern",
    "traverse",
    "snapshot", "diff", "commit", "provenance"]

/-- A request that names no method of the store. -/
def Unrouted (request : ParsedRequest) : Prop :=
  request.method = "POST" → ∀ m ∈ methods, request.path ≠ "/rpc/" ++ m

section

variable [SerdeJson] [Chrono] [JsonBytes] [HttpTexts] {σ : Type} (store : OntologyStore σ)

/-- All that can happen. A request arrives in any reads or never. -/
inductive Step : Network σ → Event → Network σ → Prop where
  | post {n : Network σ} {i : Nat} (call : StoreCall) (hfresh : n.sessions i = none) :
      Step n (.post i call)
        { n with sessions := Function.update n.sessions i (some ⟨call, none, true⟩) }
  | serve {n : Network σ} {i : Nat} {call : StoreCall} {waiting : Bool} (reads : List (List UInt8))
      (hposted : n.sessions i = some ⟨call, none, waiting⟩)
      (harrives : Arrives reads (requestOf call)) :
      Step n (.serve i call)
        { store := (handleConnection store reads n.store).2
          sessions := Function.update n.sessions i
            (some ⟨call, some (handleConnection store reads n.store).1, waiting⟩) }
  | receive {n : Network σ} {i : Nat} {call : StoreCall} {response : Response}
      (hserved : n.sessions i = some ⟨call, some response, true⟩) :
      Step n (.receive i (answerOf call response))
        { n with sessions := Function.update n.sessions i (some ⟨call, some response, false⟩) }
  | giveUp {n : Network σ} {i : Nat} {call : StoreCall} {response : Option Response}
      (hwaiting : n.sessions i = some ⟨call, response, true⟩) :
      Step n (.giveUp i)
        { n with sessions := Function.update n.sessions i (some ⟨call, response, false⟩) }
  | stray {n : Network σ} (reads : List (List UInt8))
      (hstray : ∀ request, readRequest reads = .ok request → Unrouted request) :
      Step n .stray { n with store := (handleConnection store reads n.store).2 }

/-- Steps one after the other. -/
inductive Run (start : Network σ) : List Event → Network σ → Prop where
  | nil : Run start [] start
  | snoc {events : List Event} {n n' : Network σ} {e : Event} (hrun : Run start events n)
      (hstep : Step store n e n') : Run start (events ++ [e]) n'

variable {store}

omit [HttpTexts] in
theorem dispatch_other {m : String} (h : m ∉ methods) (body : List UInt8) (s : σ) :
    (dispatch store m body s).2 = s := by
  unfold dispatch
  split
  all_goals first | rfl | exact absurd (by decide) h

omit [SerdeJson] [Chrono] [JsonBytes] [HttpTexts] in
theorem stripPrefix_rpc {path : String} {name : List Char}
    (h : stripPrefix "/rpc/".toList path.toList = some name) : path = "/rpc/" ++ .ofList name := by
  rw [stripPrefix] at h
  by_cases hprefix : "/rpc/".toList <+: path.toList
  · obtain ⟨rest, hrest⟩ := hprefix
    rw [← hrest, if_pos (List.prefix_append _ _), List.drop_left] at h
    obtain rfl := Option.some.inj h
    rw [← String.toList_inj, ← hrest, String.toList_append]
    exact congrArg ("/rpc/".toList ++ ·) String.toList_ofList.symm
  · rw [if_neg hprefix] at h
    cases h

omit [HttpTexts] in
/-- A request that names no method leaves the store as it is. -/
theorem respond_unrouted {request : ParsedRequest} (h : Unrouted request) (s : σ) :
    (respond store request s).2 = s := by
  rw [respond]
  split
  · rfl
  · rename_i hmethod
    cases hstrip : stripPrefix "/rpc/".toList request.path.toList with
    | none => rfl
    | some name =>
      have hother : .ofList name ∉ methods := fun hm =>
        h (not_not.mp hmethod) _ hm (stripPrefix_rpc hstrip)
      cases name with
      | nil => rfl
      | cons c cs => exact dispatch_other hother request.body s

theorem handleConnection_stray (store : OntologyStore σ) {reads : List (List UInt8)}
    (h : ∀ request, readRequest reads = .ok request → Unrouted request) (s : σ) :
    (handleConnection store reads s).2 = s := by
  rw [handleConnection]
  cases hread : readRequest reads with
  | error e => rfl
  | ok request => exact respond_unrouted (h request hread) s

/-- What the steps so far say about a call. -/
def Accounted (store : OntologyStore σ) (s : σ) (events : List Event) (i : Nat) :
    Option Session → Prop
  | none => ∀ call, .post i call ∉ events ∧ .serve i call ∉ events
  | some ⟨call, none, _⟩ => .post i call ∈ events ∧ ∀ k, .serve i k ∉ events
  | some ⟨call, some response, _⟩ => AnsweredIn store s events i call (answerOf call response)

variable {s : σ} {events : List Event} {n n' : Network σ} {e : Event} {i : Nat}

/-- A step of another call says nothing about a call. -/
theorem Accounted.concat {session : Option Session} (h : Accounted store s events i session)
    (hother : ∀ call, e ≠ .post i call ∧ e ≠ .serve i call) :
    Accounted store s (events ++ [e]) i session := by
  have hpost : ∀ call, .post i call ∈ events ++ [e] → .post i call ∈ events := by
    intro call hmem
    rcases List.mem_append.mp hmem with hmem | hmem
    · exact hmem
    · exact absurd (List.mem_singleton.mp hmem).symm (hother call).1
  have hserve : ∀ call, .serve i call ∈ events ++ [e] → .serve i call ∈ events := by
    intro call hmem
    rcases List.mem_append.mp hmem with hmem | hmem
    · exact hmem
    · exact absurd (List.mem_singleton.mp hmem).symm (hother call).2
  cases session with
  | none =>
    exact fun call => ⟨fun hmem => (h call).1 (hpost call hmem),
      fun hmem => (h call).2 (hserve call hmem)⟩
  | some session =>
    obtain ⟨call, response, waiting⟩ := session
    cases response with
    | none =>
      exact ⟨List.mem_append_left _ h.1, fun k hmem => h.2 k (hserve k hmem)⟩
    | some response => exact AnsweredIn.concat h e

/-- A call that arrives has its effect on the store, and its answer is on the way to the client. -/
theorem handleConnection_call {reads : List (List UInt8)} {call : StoreCall}
    (harrives : Arrives reads (requestOf call)) (hcall : CarriedCall call)
    (hanswer : ∀ a, (store.call s call).1 = .ok a → CarriedAnswer a) :
    answerOf call (handleConnection store reads s).1 = surfaced (store.call s call).1 ∧
      (handleConnection store reads s).2 = (store.call s call).2 := by
  have hremote := overConnection_eq store s (w := (call, reads)) harrives
  rw [remote_call hcall hanswer, overConnection, client_call] at hremote
  exact ⟨congrArg Prod.fst hremote, congrArg Prod.snd hremote⟩

/-- What holds behind every step of a run. -/
structure Sound (P : σ → Prop) (store : OntologyStore σ) (s : σ) (events : List Event)
    (n : Network σ) : Prop where
  linearized : Linearized store s events n
  invariant : P n.store
  accounted : ∀ i, Accounted store s events i (n.sessions i)

variable {P : σ → Prop}

/-- A step of one call: the other calls stand as they stood. -/
theorem Sound.update (h : Sound P store s events n) {session : Session}
    (hother : ∀ j ≠ i, ∀ call, e ≠ .post j call ∧ e ≠ .serve j call)
    (haccounted : Accounted store s (events ++ [e]) i (some session)) (j : Nat) :
    Accounted store s (events ++ [e]) j (Function.update n.sessions i (some session) j) := by
  by_cases hj : j = i
  · obtain rfl := hj
    rwa [Function.update_self]
  · rw [Function.update_of_ne hj]
    exact (h.accounted j).concat (hother j hj)

/-- Every step keeps it. -/
theorem Sound.step (hcarries : Carries P store) (h : Sound P store s events n)
    (hcalls : ∀ i call, .post i call ∈ events → CarriedCall call) (hstep : Step store n e n') :
    Sound P store s (events ++ [e]) n' := by
  cases hstep with
  | @post i call hfresh =>
    have hnone := h.accounted i
    rw [hfresh] at hnone
    have haccounted : Accounted store s (events ++ [.post i call]) i (some ⟨call, none, true⟩) := by
      refine ⟨by simp, fun k hmem => ?_⟩
      rcases List.mem_append.mp hmem with hmem | hmem
      · exact (hnone k).2 hmem
      · cases List.mem_singleton.mp hmem
    refine ⟨h.linearized.concat rfl rfl nofun, h.invariant,
      h.update (fun j hj k => ⟨?_, nofun⟩) haccounted⟩
    rintro ⟨⟩
    exact hj rfl
  | @serve i call waiting reads hposted harrives =>
    have hbefore := h.accounted i
    rw [hposted] at hbefore
    have hcall := hcalls i call hbefore.1
    obtain ⟨hanswer, hstore⟩ := handleConnection_call harrives hcall
      fun a => hcarries.answers n.store call a h.invariant hcall
    have haccounted : Accounted store s (events ++ [.serve i call]) i
        (some ⟨call, some (handleConnection store reads n.store).1, waiting⟩) :=
      ⟨events, [], rfl, by rw [hanswer, h.linearized.settled]⟩
    refine ⟨h.linearized.serve hstore hbefore.1 hbefore.2, ?_,
      h.update (fun j hj k => ⟨nofun, ?_⟩) haccounted⟩
    · exact hstore ▸ hcarries.preserved n.store call h.invariant hcall
    · rintro ⟨⟩
      exact hj rfl
  | @receive i call response hserved =>
    have hbefore := h.accounted i
    rw [hserved] at hbefore
    have haccounted : Accounted store s (events ++ [.receive i (answerOf call response)]) i
        (some ⟨call, some response, false⟩) := AnsweredIn.concat hbefore _
    refine ⟨h.linearized.concat rfl rfl fun j answer he => ?_, h.invariant,
      h.update (fun j hj k => ⟨nofun, nofun⟩) haccounted⟩
    obtain ⟨rfl, rfl⟩ := Event.receive.inj he
    exact ⟨call, hbefore⟩
  | @giveUp i call response hwaiting =>
    have hbefore := h.accounted i
    rw [hwaiting] at hbefore
    have haccounted :
      Accounted store s (events ++ [.giveUp i]) i (some ⟨call, response, false⟩) := by
      have hafter := hbefore.concat (e := Event.giveUp i) fun k => ⟨nofun, nofun⟩
      cases response with
      | none => exact hafter
      | some response => exact hafter
    exact ⟨h.linearized.concat rfl rfl nofun, h.invariant,
      h.update (fun j hj k => ⟨nofun, nofun⟩) haccounted⟩
  | stray reads hstray =>
    have hstore := handleConnection_stray store hstray n.store
    exact ⟨h.linearized.concat rfl hstore nofun, hstore.symm ▸ h.invariant,
      fun j => (h.accounted j).concat fun k => ⟨nofun, nofun⟩⟩

/-- Every run keeps it. -/
theorem Run.sound (hcarries : Carries P store) (hs : P s) (hrun : Run store (.start s) events n)
    (hcalls : ∀ i call, .post i call ∈ events → CarriedCall call) : Sound P store s events n := by
  induction hrun with
  | nil =>
    refine ⟨⟨rfl, fun before i call rest h => ?_, fun before i answer rest h => ?_⟩, hs,
      fun i call => ?_⟩
    · cases before <;> cases h
    · cases before <;> cases h
    · exact ⟨List.not_mem_nil, List.not_mem_nil⟩
  | snoc hrun hstep ih =>
    have hbefore := fun i call hmem => hcalls i call (List.mem_append_left _ hmem)
    exact (ih hbefore).step hcarries hbefore hstep

end

end Remote

end AtomrOntology
