import AtomrOntology.Actor.Supervision

/-!
# Are states joined to their own actors?

A state is attached to the first path prefix, in string order, whose text ends with a slash and
the actor of the state. Such a prefix need not be a whole path, and the actor of a path need not
be its last segment.
-/

namespace AtomrOntology

/-- The first entry whose key has a property is the one with the least such key. -/
theorem BTreeMap.least_of_find? {κ ν : Type} [Ord κ] [Std.TransOrd κ] [Std.LawfulEqOrd κ]
    {m : BTreeMap κ ν} {p : κ → Bool} {k : κ} {v : ν}
    (h : m.toList.find? (fun kv => p kv.1) = some (k, v)) :
    m[k]? = some v ∧ p k ∧ ∀ k' ∈ m, p k' → (compare k k').isLE := by
  obtain ⟨hp, before, after, hlist, hbefore⟩ := List.find?_eq_some_iff_append.mp h
  refine ⟨Std.ExtTreeMap.mem_toList_iff_getElem?_eq_some.mp (List.mem_of_find?_eq_some h), hp, ?_⟩
  intro k' hk' hp'
  obtain ⟨v', hv'⟩ := Option.isSome_iff_exists.mp (Std.ExtTreeMap.mem_iff_isSome_getElem?.mp hk')
  have hmem := Std.ExtTreeMap.mem_toList_iff_getElem?_eq_some.mpr hv'
  have hordered := @Std.ExtTreeMap.ordered_keys_toList κ ν compare m _
  rw [hlist] at hmem hordered
  rcases List.mem_append.mp hmem with hfront | hrest
  · exact absurd hp' (by simpa using hbefore _ hfront)
  · rcases List.mem_cons.mp hrest with hhere | hback
    · cases hhere
      exact Std.ReflOrd.isLE_rfl
    · have hlt := (List.pairwise_cons.mp (List.pairwise_append.mp hordered).2.1).1 _ hback
      exact Ordering.isLE_of_eq_lt hlt

namespace Supervision

variable {random : Nat → NodeId} {toRfc3339 : DateTime → String} {label : String}
  {ctx : ProjectionCtx} {batch : ActorBatch} {state : SerializedState} {actor : ActorId}
  {ids : BTreeMap String NodeId} {k : String} {x : NodeId} {d d' : HierarchicalDraft}
  {owners : List SupervisionPath} {iri : IriMintingStrategy}

/-- The text of a prefix ends with an actor. -/
def EndsIn (actor : ActorId) (text : String) : Prop :=
  ("/" ++ actor.value).toList <:+ text.toList

/-- The first entry of the prefix map whose text ends with an actor. -/
def holder (ids : BTreeMap String NodeId) (actor : ActorId) : Option (String × NodeId) :=
  ids.toList.find? fun kv => ("/" ++ actor.value).toList.isSuffixOf kv.1.toList

/-- Without a holder no prefix ends in the actor. -/
theorem holder_eq_none (h : holder ids actor = none) (hk : k ∈ ids) : ¬EndsIn actor k := by
  obtain ⟨v, hv⟩ := Option.isSome_iff_exists.mp (Std.ExtTreeMap.mem_iff_isSome_getElem?.mp hk)
  have hmem := Std.ExtTreeMap.mem_toList_iff_getElem?_eq_some.mpr hv
  have hnot := List.find?_eq_none.mp h (k, v) hmem
  rwa [List.isSuffixOf_iff_suffix] at hnot

/-- The holder is the least prefix that ends in the actor. -/
theorem holder_eq_some (h : holder ids actor = some (k, x)) :
    ids[k]? = some x ∧ EndsIn actor k ∧ ∀ k' ∈ ids, EndsIn actor k' → (compare k k').isLE := by
  obtain ⟨hget, hends, hleast⟩ := BTreeMap.least_of_find?
    (p := fun text : String => ("/" ++ actor.value).toList.isSuffixOf text.toList) h
  simp only [List.isSuffixOf_iff_suffix] at hends hleast
  exact ⟨hget, hends, hleast⟩

/-- A state keeps the prefix map and adds the edge from its holder. -/
theorem insertState_spec [Blake3] :
    (HierarchicalDraft.insertState ctx d state).prefixToId = d.prefixToId ∧
      (HierarchicalDraft.insertState ctx d state).edges = d.edges ++
        ((holder d.prefixToId state.actor).map fun kv =>
          Edge.between kv.2 "holdsState" (stateNode ctx state).id).toList := by
  unfold HierarchicalDraft.insertState holder
  dsimp only [HierarchicalDraft.pushNode]
  cases d.prefixToId.toList.find? fun kv =>
      ("/" ++ state.actor.value).toList.isSuffixOf kv.1.toList with
  | none => exact ⟨rfl, (List.append_nil _).symm⟩
  | some kv => exact ⟨rfl, rfl⟩

section

variable [Blake3]

/-- States add edges from their holders. -/
theorem mem_edges_states {states : List SerializedState} {e : Edge} :
    e ∈ (states.foldl (HierarchicalDraft.insertState ctx) d).edges ↔
      e ∈ d.edges ∨ ∃ state ∈ states, ∃ k x, holder d.prefixToId state.actor = some (k, x) ∧
        e = .between x "holdsState" (stateNode ctx state).id := by
  induction states generalizing d with
  | nil => simp
  | cons state states ih =>
    obtain ⟨hids, hedges⟩ := @insertState_spec ctx state d _
    rw [List.foldl_cons, ih, hids, hedges, List.mem_append, or_assoc]
    refine or_congr_right ?_
    simp only [List.mem_cons, or_and_right, exists_or, exists_eq_left]
    refine or_congr_left ?_
    cases holder d.prefixToId state.actor with
    | none => simp
    | some kv =>
      obtain ⟨k, x⟩ := kv
      simp only [Option.map_some, Option.toList_some, List.mem_singleton, Option.some.injEq,
        Prod.mk.injEq]
      constructor
      · intro h
        exact ⟨k, x, ⟨rfl, rfl⟩, h⟩
      · intro h
        obtain ⟨_, _, ⟨rfl, rfl⟩, he⟩ := h
        exact he

/-- No state is held yet. -/
def NoneHeld (d : HierarchicalDraft) : Prop := ∀ e ∈ d.edges, e.label ≠ "holdsState"

/-- Segments hold no states. -/
theorem NoneHeld.insertSegments {path : SupervisionPath} {segments : List (String × Nat)}
    {current : String} {prev : Option NodeId} (h : NoneHeld d)
    (hd : HierarchicalDraft.insertSegments random ctx path segments current prev d = .ok d') :
    NoneHeld d' := by
  induction segments generalizing current prev d with
  | nil =>
    cases hd
    exact h
  | cons s rest ih =>
    obtain ⟨id, i, -, hrest⟩ := insertSegments_cons.mp hd
    refine ih ?_ hrest
    intro e he
    rw [visit_edges] at he
    rcases List.mem_append.mp he with hold | hnew
    · exact h e hold
    · obtain ⟨parent, -, rfl⟩ : ∃ parent, prev = some parent ∧
          Edge.between parent "supervises" id = e := by
        simpa using hnew
      exact (by decide : "supervises" ≠ "holdsState")

/-- Nor do events. -/
theorem NoneHeld.emit {event : JournalEvent} {id : NodeId} {i : Option Iri} (h : NoneHeld d) :
    NoneHeld (emit toRfc3339 ctx event id i d) := by
  unfold Supervision.emit
  dsimp only
  split
  · exact h
  · split
    · intro e he
      rcases List.mem_append.mp he with hold | hnew
      · exact h e hold
      · obtain rfl := List.mem_singleton.mp hnew
        exact (by decide : "emitted" ≠ "holdsState")
    · exact h

/-- What holds of a draft before the states: its prefix map is that of the visited prefixes. -/
structure Ready (iri : IriMintingStrategy) (hist : List SupervisionPath) (d : HierarchicalDraft) :
    Prop where
  built : Built iri (visits hist) d
  noneHeld : NoneHeld d

/-- After paths and events a draft is ready for states. -/
theorem Ready.of_paths_events {d₁ : HierarchicalDraft}
    (hpaths : batch.paths.foldlM (HierarchicalDraft.insertPath random ctx) .empty = .ok d₁)
    (hevents : batch.events.foldlM (HierarchicalDraft.insertEvent random toRfc3339 ctx) d₁ =
      .ok d) : Ready ctx.iri (visited batch) d := by
  refine draft_induction (P := Ready ctx.iri) ?_ ?_ ?_ hpaths hevents
  · exact ⟨(After.empty random ctx.iri).built, fun e he => absurd he List.not_mem_nil⟩
  · intro hist path d d' _ h hd
    exact ⟨h.built.insertPath hd, h.noneHeld.insertSegments hd⟩
  · intro hist event d id i h _
    exact ⟨attaches_emit.built h.built, h.noneHeld.emit⟩

/-- An id is that of the leaf of a path with an actor. -/
def Owns (ctx : ProjectionCtx) (owners : List SupervisionPath) (actor : ActorId) (x : NodeId) :
    Prop :=
  ∃ p ∈ owners, p.actor = actor ∧ p.segments ≠ [] ∧
    ∃ r i, ctx.iri.mintActor r p = .ok (x, i)

/-- An edge to the node of a state starts at an id. -/
def Holds (ctx : ProjectionCtx) (edges : List Edge) (state : SerializedState) (x : NodeId) : Prop :=
  ∃ e ∈ edges, e.label = "holdsState" ∧ e.source = x ∧ e.target = (stateNode ctx state).id

/-- A state is attached to the leaf of a path with its actor if there is one, and to nothing
else. -/
def JoinedToOwn (ctx : ProjectionCtx) (owners : List SupervisionPath) (edges : List Edge)
    (state : SerializedState) : Prop :=
  ((∃ p ∈ owners, p.actor = state.actor) →
      ∃ x, Holds ctx edges state x ∧ Owns ctx owners state.actor x) ∧
    ∀ x, Holds ctx edges state x → Owns ctx owners state.actor x

/-- No two texts that the nodes of a batch are named by have the same hash. -/
structure HashesApart (ctx : ProjectionCtx) (batch : ActorBatch) : Prop where
  paths : Set.InjOn (fun s : String => (Id.contentAddress (utf8 s) : NodeId))
    {s | ∃ q ∈ visits (visited batch), s = Minting.text ctx.iri (.actor (.parse (joined q)))}
  states : Set.InjOn (fun s : String => (Id.contentAddress (utf8 s) : NodeId))
    {s | ∃ state ∈ batch.states, s = "state:" ++ state.actor.value}

omit [Blake3] in
/-- Paths with one text are written alike. -/
theorem render_of_text_eq {p q : SupervisionPath}
    (h : Minting.text iri (.actor p) = Minting.text iri (.actor q)) : p.render = q.render := by
  cases iri with
  | pathBased base =>
    have hchars := congrArg String.toList h
    simp only [Minting.text, String.toList_append, List.append_cancel_left_eq] at hchars
    exact String.toList_inj.mp hchars
  | contentAddressed => exact h
  | uuid => exact h

omit [Blake3] in
/-- The text of a path can be had from its joined segments. -/
theorem text_parse_joined {p : SupervisionPath} (hne : p.segments ≠ []) :
    Minting.text iri (.actor (.parse (joined p.segments))) = Minting.text iri (.actor p) := by
  unfold Minting.text
  simp only [render_parse_joined hne, render_eq_joined hne]

/-- The id of a prefix is that of the leaf of a path exactly if the path is the prefix. -/
theorem owns_iff (hiri : ctx.iri ≠ .uuid) (howners : owners ⊆ visited batch)
    (hhash : HashesApart ctx batch) (hbuilt : Built ctx.iri (visits (visited batch)) d)
    (hk : d.prefixToId[k]? = some x) :
    Owns ctx owners actor x ↔ ∃ p ∈ owners, p.actor = actor ∧ joined p.segments = k := by
  have hmem : k ∈ d.prefixToId := by
    rw [Std.ExtTreeMap.mem_iff_isSome_getElem?, hk]
    rfl
  obtain ⟨q, hq, rfl⟩ := (hbuilt.keys k).mp hmem
  obtain ⟨-, -, hne, -⟩ := mem_visits.mp hq
  obtain ⟨r, i, hmint⟩ := hbuilt.minted _ _ hk
  constructor
  · intro h
    obtain ⟨p, hp, hactor, hsegments, r', i', hmint'⟩ := h
    refine ⟨p, hp, hactor, ?_⟩
    have hsame := (Minting.mint_ok hiri (x := .actor p) hmint').symm.trans
      (Minting.mint_ok hiri (x := .actor (.parse (joined q))) hmint)
    rw [← text_parse_joined hsegments] at hsame
    have hvisited : p.segments ∈ visits (visited batch) :=
      mem_visits.mpr ⟨p, howners hp, hsegments, List.prefix_rfl⟩
    have htext := hhash.paths ⟨_, hvisited, rfl⟩ ⟨_, hq, rfl⟩ hsame
    have hrender := render_of_text_eq htext
    rwa [render_parse_joined hsegments, render_parse_joined hne] at hrender
  · intro h
    obtain ⟨p, hp, hactor, hjoined⟩ := h
    have hsegments : p.segments ≠ [] := by
      intro hnil
      rw [hnil] at hjoined
      exact joined_append_ne [] hne hjoined.symm
    refine ⟨p, hp, hactor, hsegments, r, i, ?_⟩
    rw [← mintActor_parse_joined hsegments, hjoined]
    exact hmint

/-- A node holds a state if it is the holder of its actor. -/
theorem holds_iff (hstates : state ∈ batch.states) (hhash : HashesApart ctx batch)
    (hnone : NoneHeld d) :
    Holds ctx (batch.states.foldl (HierarchicalDraft.insertState ctx) d).edges state x ↔
      ∃ k, holder d.prefixToId state.actor = some (k, x) := by
  constructor
  · intro h
    obtain ⟨e, he, hlabel, rfl, htarget⟩ := h
    obtain hold | ⟨state', hstate', k, x, hholder, rfl⟩ := mem_edges_states.mp he
    · exact absurd hlabel (hnone e hold)
    · have htext := hhash.states ⟨state', hstate', rfl⟩ ⟨state, hstates, rfl⟩ htarget
      have hactor : state'.actor = state.actor := by
        rw [← ActorId.value_inj, ← String.toList_inj]
        have hchars := congrArg String.toList htext
        rwa [String.toList_append, String.toList_append, List.append_cancel_left_eq] at hchars
      exact ⟨k, hactor ▸ hholder⟩
  · intro h
    obtain ⟨k, hholder⟩ := h
    exact ⟨_, mem_edges_states.mpr (Or.inr ⟨state, hstates, k, x, hholder, rfl⟩), rfl, rfl, rfl⟩

/-- The first prefix of a batch, in string order, whose text ends with an actor. -/
def FirstMatch (batch : ActorBatch) (actor : ActorId) (q : List String) : Prop :=
  q ∈ visits (visited batch) ∧ EndsIn actor (joined q) ∧
    ∀ q' ∈ visits (visited batch), EndsIn actor (joined q') →
      (compare (joined q) (joined q')).isLE

/-- The first prefix that ends with the actor of a state is a whole path with this actor, and
there is such a prefix if there is such a path. -/
def FirstIsOwn (owners : List SupervisionPath) (batch : ActorBatch) (state : SerializedState) :
    Prop :=
  (∀ q, FirstMatch batch state.actor q →
      ∃ p ∈ owners, p.actor = state.actor ∧ joined p.segments = joined q) ∧
    ((∃ p ∈ owners, p.actor = state.actor) → ∃ q, FirstMatch batch state.actor q)

/-- Every state of a projected batch is attached to its own actor exactly if the first prefix
that ends with the actor is a path of it. The paths that count are any that the batch visits. -/
theorem states_joined_iff (random : Nat → NodeId) (toRfc3339 : DateTime → String) (label : String)
    (ctx : ProjectionCtx) (batch : ActorBatch) (owners : List SupervisionPath)
    (delta : OntologyDelta) (hiri : ctx.iri ≠ .uuid) (howners : owners ⊆ visited batch)
    (hhash : HashesApart ctx batch)
    (hok : (hierarchicalProjection random toRfc3339 label).project batch ctx = .ok delta) :
    (∀ state ∈ batch.states, JoinedToOwn ctx owners delta.edges state) ↔
      ∀ state ∈ batch.states, FirstIsOwn owners batch state := by
  obtain ⟨d, hd, rfl⟩ := project_ok_iff.mp hok
  obtain ⟨d₁, d₂, hpaths, hevents, rfl⟩ := ofBatch_ok_iff.mp hd
  obtain ⟨hbuilt, hnone⟩ := Ready.of_paths_events hpaths hevents
  refine forall₂_congr fun state hstate => ?_
  unfold JoinedToOwn FirstIsOwn
  simp only [holds_iff hstate hhash hnone]
  cases hholder : holder d₂.prefixToId state.actor with
  | none =>
    have hno : ∀ q, ¬FirstMatch batch state.actor q := by
      intro q hq
      exact holder_eq_none hholder ((hbuilt.keys _).mpr ⟨q, hq.1, rfl⟩) hq.2.1
    simp [hno]
  | some kv =>
    obtain ⟨k, x⟩ := kv
    obtain ⟨hget, hends, hleast⟩ := holder_eq_some hholder
    have hmem : k ∈ d₂.prefixToId := by
      rw [Std.ExtTreeMap.mem_iff_isSome_getElem?, hget]
      rfl
    obtain ⟨q₀, hq₀, rfl⟩ := (hbuilt.keys k).mp hmem
    have hleast' : ∀ q' ∈ visits (visited batch), EndsIn state.actor (joined q') →
        (compare (joined q₀) (joined q')).isLE :=
      fun q' hq' => hleast _ ((hbuilt.keys _).mpr ⟨q', hq', rfl⟩)
    have hfirst : FirstMatch batch state.actor q₀ := ⟨hq₀, hends, hleast'⟩
    have hunique : ∀ q, FirstMatch batch state.actor q → joined q = joined q₀ := by
      intro q hq
      exact Std.LawfulEqOrd.eq_of_compare
        (Std.OrientedCmp.isLE_antisymm (hq.2.2 q₀ hq₀ hends) (hleast' q hq.1 hq.2.1))
    have howns : Owns ctx owners state.actor x ↔
        ∃ p ∈ owners, p.actor = state.actor ∧ joined p.segments = joined q₀ :=
      owns_iff hiri howners hhash hbuilt hget
    constructor
    · intro h
      have hown := h.2 x ⟨_, rfl⟩
      refine ⟨fun q hq => ?_, fun _ => ⟨q₀, hfirst⟩⟩
      rw [hunique q hq]
      exact howns.mp hown
    · intro h
      have hown := howns.mpr (h.1 q₀ hfirst)
      refine ⟨fun _ => ⟨x, ⟨_, rfl⟩, hown⟩, fun x' hx' => ?_⟩
      obtain ⟨_, hsame⟩ := hx'
      cases hsame
      exact hown

end

/-- A batch of one path and one state. -/
private def oneState (segments : List String) (owner actor : String) : ActorBatch :=
  ⟨[⟨segments, ⟨owner⟩, ∅⟩], [], [⟨⟨actor⟩, ⟨.null, Eq.refl true⟩, none⟩], .beginning, none⟩

private theorem hashesApart_leaf :
    @HashesApart Blake3.beginning ProjectionCtx.sample (oneState ["a", "b"] "b" "b") := by
  have hvisits : visits (visited (oneState ["a", "b"] "b" "b")) = [["a"], ["a", "b"]] := rfl
  refine @HashesApart.mk Blake3.beginning _ _ ?_ ?_
  · intro s hs t ht heq
    obtain ⟨q, hq, rfl⟩ := hs
    obtain ⟨q', hq', rfl⟩ := ht
    rw [hvisits] at hq hq'
    simp only [List.mem_cons, List.not_mem_nil, or_false] at hq hq'
    rcases hq with rfl | rfl <;> rcases hq' with rfl | rfl
    · rfl
    · exact absurd heq (by decide +kernel)
    · exact absurd heq (by decide +kernel)
    · rfl
  · intro s hs t ht _
    obtain ⟨state, hstate, rfl⟩ := hs
    obtain ⟨state', hstate', rfl⟩ := ht
    rw [List.mem_singleton.mp hstate, List.mem_singleton.mp hstate']

private theorem firstMatch_leaf : FirstMatch (oneState ["a", "b"] "b" "b") ⟨"b"⟩ ["a", "b"] := by
  have hvisits : visits (visited (oneState ["a", "b"] "b" "b")) = [["a"], ["a", "b"]] := rfl
  unfold FirstMatch EndsIn
  rw [hvisits]
  decide

/-- The state of an actor is attached to its leaf. -/
theorem state_joined_to_leaf :
    @JoinedToOwn Blake3.beginning ProjectionCtx.sample (oneState ["a", "b"] "b" "b").paths
      (sampleDelta (oneState ["a", "b"] "b" "b")).edges ⟨⟨"b"⟩, ⟨.null, rfl⟩, none⟩ := by
  have hown : ∀ state ∈ (oneState ["a", "b"] "b" "b").states,
      FirstIsOwn (oneState ["a", "b"] "b" "b").paths (oneState ["a", "b"] "b" "b") state := by
    intro state hstate
    obtain rfl := List.mem_singleton.mp hstate
    refine ⟨fun q hq => ⟨_, List.mem_cons_self, rfl, ?_⟩, fun _ => ⟨_, firstMatch_leaf⟩⟩
    exact Std.LawfulEqOrd.eq_of_compare (Std.OrientedCmp.isLE_antisymm
      (firstMatch_leaf.2.2 q hq.1 hq.2.1) (hq.2.2 _ firstMatch_leaf.1 firstMatch_leaf.2.1))
  exact (@states_joined_iff Blake3.beginning _ _ "" ProjectionCtx.sample _ _ _ (by decide)
    (List.subset_append_left _ _) hashesApart_leaf (project_sampleDelta (by decide +kernel))).mpr
      hown
    _ List.mem_cons_self

/-- The state of an actor that is not the last segment of its path is not attached, and a state
is attached to a supervisor with the name of its actor. -/
theorem states_joined_by_segment :
    (sampleStrategy.project (oneState ["a"] "x" "x") ProjectionCtx.sample =
        .ok (sampleDelta (oneState ["a"] "x" "x")) ∧
      ¬∀ state ∈ (oneState ["a"] "x" "x").states,
        @JoinedToOwn Blake3.beginning ProjectionCtx.sample (visited (oneState ["a"] "x" "x"))
          (sampleDelta (oneState ["a"] "x" "x")).edges state) ∧
    (sampleStrategy.project (oneState ["a", "b"] "b" "a") ProjectionCtx.sample =
        .ok (sampleDelta (oneState ["a", "b"] "b" "a")) ∧
      ¬∀ state ∈ (oneState ["a", "b"] "b" "a").states,
        @JoinedToOwn Blake3.beginning ProjectionCtx.sample (visited (oneState ["a", "b"] "b" "a"))
          (sampleDelta (oneState ["a", "b"] "b" "a")).edges state) := by
  refine ⟨⟨project_sampleDelta (by decide +kernel), fun h => ?_⟩,
    project_sampleDelta (by decide +kernel), fun h => ?_⟩
  · obtain ⟨x, ⟨e, he, -⟩, -⟩ :=
      (h _ List.mem_cons_self).1 ⟨_, List.mem_cons_self, rfl⟩
    have hnone : (sampleDelta (oneState ["a"] "x" "x")).edges.isEmpty = true := by decide +kernel
    rw [List.isEmpty_iff.mp hnone] at he
    cases he
  · have hheld : (sampleDelta (oneState ["a", "b"] "b" "a")).edges.any (fun e =>
        e.label = "holdsState" ∧
          e.target = @Id.contentAddress Blake3.beginning .node (utf8 "state:a")) = true := by
      decide +kernel
    obtain ⟨e, he, hspec⟩ := List.any_eq_true.mp hheld
    obtain ⟨hlabel, htarget⟩ := of_decide_eq_true hspec
    obtain ⟨p, hp, hactor, -⟩ := (h _ List.mem_cons_self).2 e.source ⟨e, he, hlabel, rfl, htarget⟩
    obtain rfl := List.mem_singleton.mp hp
    exact absurd hactor (by decide)

end Supervision

end AtomrOntology
