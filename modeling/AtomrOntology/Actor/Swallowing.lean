import AtomrOntology.Actor.SnapshotDiff

/-!
# What does a snapshot-diff projection swallow?

A failed projection has remembered the keys of items that it did not emit. A state is taken to
be known when its actor and digest are, so another payload under the same digest, or under
none, is dropped.
-/

namespace AtomrOntology

namespace SnapshotDiff

section

variable [Blake3] [DebugEscapes] {random : Nat → NodeId} {toRfc3339 : DateTime → String}
  {ctx : ProjectionCtx} {seen : SeenSets} {batch : ActorBatch}

/-- The delta of what is emitted. -/
def deltaOf (toRfc3339 : DateTime → String) (ctx : ProjectionCtx)
    (actors : List (SupervisionPath × NodeId × Option Iri))
    (emitted : List (JournalEvent × NodeId × Option Iri)) (states : List SerializedState) :
    OntologyDelta :=
  ⟨actors.map (fun a => pathNode ctx a.1 a.2.1 a.2.2) ++
      (emitted.map (fun e => eventNode toRfc3339 ctx e.1 e.2.1 e.2.2) ++
        states.map (stateNode ctx)),
    successors (emitted.map fun e => e.2.1), []⟩

/-- A projection fails at a path, or at an event, or emits what is new. -/
theorem project_cases (random : Nat → NodeId) (toRfc3339 : DateTime → String) (seen : SeenSets)
    (batch : ActorBatch) (ctx : ProjectionCtx) :
    (∃ e, (newPaths random ctx batch.paths seen.paths).1 = .error e ∧
      project random toRfc3339 seen batch ctx = (.error (.iri e),
        { seen with paths := (newPaths random ctx batch.paths seen.paths).2 })) ∨
    (∃ actors, (newPaths random ctx batch.paths seen.paths).1 = .ok actors ∧
      ((∃ e, (newEvents random ctx batch.events seen.events actors.length).1 = .error e ∧
        project random toRfc3339 seen batch ctx = (.error (.iri e),
          { seen with
            paths := (newPaths random ctx batch.paths seen.paths).2
            events := (newEvents random ctx batch.events seen.events actors.length).2 })) ∨
      ∃ emitted, (newEvents random ctx batch.events seen.events actors.length).1 = .ok emitted ∧
        project random toRfc3339 seen batch ctx =
          (.ok (deltaOf toRfc3339 ctx actors emitted
            (takeNew stateKey batch.states seen.stateDigests).1),
          ⟨(newPaths random ctx batch.paths seen.paths).2,
            (newEvents random ctx batch.events seen.events actors.length).2,
            (takeNew stateKey batch.states seen.stateDigests).2⟩))) := by
  unfold project
  rcases newPaths random ctx batch.paths seen.paths with ⟨e | actors, paths⟩
  · exact Or.inl ⟨e, rfl, rfl⟩
  · refine Or.inr ⟨actors, rfl, ?_⟩
    dsimp only
    rcases newEvents random ctx batch.events seen.events actors.length with ⟨e | emitted, events⟩
    · exact Or.inl ⟨e, rfl, rfl⟩
    · exact Or.inr ⟨emitted, rfl, rfl⟩

/-- An id can be minted for a subject. -/
def CanMint (iri : IriMintingStrategy) (x : Minting.Subject) : Prop :=
  ∀ r, ∃ m, Minting.mint iri r x = .ok m

omit [DebugEscapes] in
/-- Whether an id can be minted does not depend on what is drawn. -/
theorem canMint_iff {iri : IriMintingStrategy} {r : NodeId} {x : Minting.Subject} :
    (∃ m, Minting.mint iri r x = .ok m) ↔ CanMint iri x := by
  constructor
  · intro h r'
    cases iri with
    | uuid => cases x <;> exact ⟨_, rfl⟩
    | pathBased base => cases x <;> exact h
    | contentAddressed => cases x <;> exact h
  · exact fun h => h r

omit [DebugEscapes] in
/-- Whether an id can be minted for a path is a matter of its rendering. -/
theorem canMint_path {iri : IriMintingStrategy} {p q : SupervisionPath} (h : p.render = q.render) :
    CanMint iri (.actor p) ↔ CanMint iri (.actor q) := by
  have hmint : ∀ r, Minting.mint iri r (.actor p) = Minting.mint iri r (.actor q) := by
    intro r
    cases iri <;> simp only [Minting.mint, IriMintingStrategy.mintActor, h]
  simp only [CanMint, hmint]

omit [DebugEscapes] in
/-- Whether an id can be minted for an event is a matter of its key. -/
theorem canMint_event {iri : IriMintingStrategy} {e f : JournalEvent}
    (h : eventKey e = eventKey f) :
    CanMint iri (.event e) ↔ CanMint iri (.event f) := by
  obtain ⟨hactor, hversion⟩ := Prod.mk.inj h
  cases iri with
  | pathBased base =>
    have hmint : ∀ r, Minting.mint (.pathBased base) r (.event e) =
        Minting.mint (.pathBased base) r (.event f) := by
      intro r
      simp only [Minting.mint, IriMintingStrategy.mintEvent, hactor, hversion]
    simp only [CanMint, hmint]
  | contentAddressed => exact ⟨fun _ _ => ⟨_, rfl⟩, fun _ _ => ⟨_, rfl⟩⟩
  | uuid => exact ⟨fun _ _ => ⟨_, rfl⟩, fun _ _ => ⟨_, rfl⟩⟩

omit [DebugEscapes] in
/-- New paths are projected if ids can be minted for them. -/
theorem newPaths_ok_iff {paths : List SupervisionPath} {known : BTreeSet String} :
    (∃ r, (newPaths random ctx paths known).1 = .ok r) ↔
      ∀ p ∈ paths, p.render ∉ known → CanMint ctx.iri (.actor p) := by
  rw [newPaths, emitNew_ok_iff fun k => ∀ p, p.render = k → CanMint ctx.iri (.actor p)]
  · constructor
    · exact fun h p hp hnew => h p hp hnew p rfl
    · exact fun h p hp hnew q hq => (canMint_path hq.symm).mp (h p hp hnew)
  · intro n p
    refine (@canMint_iff _ ctx.iri (random n) (.actor p)).trans ?_
    exact ⟨fun h q hq => (canMint_path hq.symm).mp h, fun h => h p rfl⟩

omit [DebugEscapes] in
/-- New events are projected if ids can be minted for them. -/
theorem newEvents_ok_iff {events : List JournalEvent} {known : BTreeSet (String × UInt64)}
    {minted : Nat} : (∃ r, (newEvents random ctx events known minted).1 = .ok r) ↔
      ∀ e ∈ events, eventKey e ∉ known → CanMint ctx.iri (.event e) := by
  rw [newEvents, emitNew_ok_iff fun k => ∀ e, eventKey e = k → CanMint ctx.iri (.event e)]
  · constructor
    · exact fun h e he hnew => h e he hnew e rfl
    · exact fun h e he hnew f hf => (canMint_event hf.symm).mp (h e he hnew)
  · intro n e
    refine (@canMint_iff _ ctx.iri (random n) (.event e)).trans ?_
    exact ⟨fun h f hf => (canMint_event hf.symm).mp h, fun h => h e rfl⟩

/-- A batch of items of another one for which ids can be minted. -/
structure PartOf (iri : IriMintingStrategy) (retry batch : ActorBatch) : Prop where
  paths : ∀ p ∈ retry.paths, p ∈ batch.paths ∧ CanMint iri (.actor p)
  events : ∀ e ∈ retry.events, e ∈ batch.events ∧ CanMint iri (.event e)
  states : retry.states ⊆ batch.states

/-- Every item of a batch that was not known has a node. -/
structure EmitsNew (seen : SeenSets) (batch : ActorBatch) (delta : OntologyDelta) : Prop where
  paths : ∀ p ∈ batch.paths, p.render ∉ seen.paths → ∃ n ∈ delta.nodes,
    n.types = ["Actor"] ∧ n.properties["path"]? = some (.string p.render)
  events : ∀ e ∈ batch.events, eventKey e ∉ seen.events → ∃ n ∈ delta.nodes,
    n.types = ["ActorEvent"] ∧ n.properties["actor_id"]? = some (.string e.actor.value) ∧
      n.properties["cursor_version"]? = some (.integer e.cursor.version.toInt64)
  states : ∀ s ∈ batch.states, stateKey s ∉ seen.stateDigests → ∃ n ∈ delta.nodes,
    n.types = ["ActorState"] ∧ n.id = stateId s

/-- A failed projection remembers nothing, and what could be minted of its batch is emitted by the
next one. -/
def AtomicOnError (random : Nat → NodeId) (toRfc3339 : DateTime → String) (seen : SeenSets)
    (batch : ActorBatch) (ctx : ProjectionCtx) : Prop :=
  ∀ e, (project random toRfc3339 seen batch ctx).1 = .error e →
    (project random toRfc3339 seen batch ctx).2 = seen ∧
    ∀ (retry : ActorBatch) (random' : Nat → NodeId), PartOf ctx.iri retry batch → ∃ delta,
      (project random' toRfc3339 (project random toRfc3339 seen batch ctx).2 retry ctx).1 =
        .ok delta ∧ EmitsNew seen retry delta

omit [Blake3] [DebugEscapes] in
theorem eventNode_properties {e : JournalEvent} {id : NodeId} {i : Option Iri} :
    (eventNode toRfc3339 ctx e id i).types = ["ActorEvent"] ∧
    (eventNode toRfc3339 ctx e id i).properties["actor_id"]? = some (.string e.actor.value) ∧
    (eventNode toRfc3339 ctx e id i).properties["cursor_version"]? =
      some (.integer e.cursor.version.toInt64) := by
  unfold eventNode
  dsimp only
  split
  · refine ⟨rfl, ?_, ?_⟩ <;> simp only [Node.withProperty, BTreeMap.get_insert] <;> rfl
  · refine ⟨rfl, ?_, ?_⟩ <;> simp only [Node.withProperty, BTreeMap.get_insert] <;> rfl

/-- States with one actor and digest have one id. -/
theorem stateId_of_key {s t : SerializedState} (h : stateKey s = stateKey t) :
    stateId s = stateId t := by
  obtain ⟨hactor, hdigest⟩ := Prod.mk.inj h
  rw [stateId, stateId, stateText, stateText, hactor, hdigest]

/-- A projection of items that can all be minted emits the new ones. -/
theorem project_emits (random : Nat → NodeId) (toRfc3339 : DateTime → String) (seen : SeenSets)
    (batch : ActorBatch) (ctx : ProjectionCtx)
    (hpaths : ∀ p ∈ batch.paths, p.render ∉ seen.paths → CanMint ctx.iri (.actor p))
    (hevents : ∀ e ∈ batch.events, eventKey e ∉ seen.events → CanMint ctx.iri (.event e)) :
    ∃ delta, (project random toRfc3339 seen batch ctx).1 = .ok delta ∧
    EmitsNew seen batch delta := by
  obtain ⟨e, he, -⟩ | ⟨actors, hactors, ⟨e, he, -⟩ | ⟨emitted, hemitted, hproject⟩⟩ :=
    project_cases random toRfc3339 seen batch ctx
  · obtain ⟨r, hr⟩ := newPaths_ok_iff.mpr hpaths
    rw [he] at hr
    cases hr
  · obtain ⟨r, hr⟩ := newEvents_ok_iff.mpr hevents
    rw [he] at hr
    cases hr
  · refine ⟨_, congrArg Prod.fst hproject, ?_, ?_, ?_⟩
    · intro p hp hnew
      obtain ⟨a, ha, hkey⟩ := exists_mem_emitNew hactors hp hnew
      refine ⟨_, List.mem_append_left _ (List.mem_map_of_mem ha), rfl, ?_⟩
      simp only [pathNode, Node.withProperty, BTreeMap.get_insert, hkey]
      rfl
    · intro e he hnew
      obtain ⟨x, hx, hkey⟩ := exists_mem_emitNew hemitted he hnew
      obtain ⟨hactor, hversion⟩ := Prod.mk.inj hkey
      obtain ⟨htypes, hactorId, hcursor⟩ :=
        @eventNode_properties toRfc3339 ctx x.1 x.2.1 x.2.2
      refine ⟨_, List.mem_append_right _ (List.mem_append_left _ (List.mem_map_of_mem hx)), htypes,
        ?_, ?_⟩
      · rw [hactorId, hactor]
      · rw [hcursor, hversion]
    · intro s hs hnew
      have hfound : (batch.states.find? fun t => stateKey t = stateKey s).isSome :=
        List.find?_isSome.mpr ⟨s, hs, decide_eq_true rfl⟩
      obtain ⟨t, ht⟩ := Option.isSome_iff_exists.mp hfound
      have hkey : stateKey t = stateKey s := by simpa using List.find?_some ht
      rw [← hkey] at ht hnew
      refine ⟨stateNode ctx t, ?_, rfl, stateId_of_key hkey⟩
      exact List.mem_append_right _ (List.mem_append_right _
        (List.mem_map_of_mem (mem_takeNew.mpr ⟨hnew, ht⟩)))

/-- A failed projection remembers the key of the item it failed at, so it is atomic exactly if it
does not fail: an id can be minted for every path and event that is not known yet. -/
theorem atomicOnError_iff (random : Nat → NodeId) (toRfc3339 : DateTime → String) (seen : SeenSets)
    (batch : ActorBatch) (ctx : ProjectionCtx) :
    AtomicOnError random toRfc3339 seen batch ctx ↔
      (∀ p ∈ batch.paths, p.render ∉ seen.paths → CanMint ctx.iri (.actor p)) ∧
        ∀ e ∈ batch.events, eventKey e ∉ seen.events → CanMint ctx.iri (.event e) := by
  constructor
  · intro h
    obtain ⟨e, he, hproject⟩ | ⟨actors, hactors, ⟨e, he, hproject⟩ | ⟨emitted, hemitted, -⟩⟩ :=
      project_cases random toRfc3339 seen batch ctx
    · -- the path that failed is remembered now
      obtain ⟨k, hk, hnew⟩ := exists_mark_of_error he
      have hsame := (h (.iri e) (congrArg Prod.fst hproject)).1
      rw [hproject] at hsame
      exact absurd (congrArg SeenSets.paths hsame ▸ hk) hnew
    · obtain ⟨k, hk, hnew⟩ := exists_mark_of_error he
      have hsame := (h (.iri e) (congrArg Prod.fst hproject)).1
      rw [hproject] at hsame
      exact absurd (congrArg SeenSets.events hsame ▸ hk) hnew
    · exact ⟨newPaths_ok_iff.mp ⟨actors, hactors⟩, newEvents_ok_iff.mp ⟨emitted, hemitted⟩⟩
  · intro h e he
    obtain ⟨delta, hdelta, -⟩ := project_emits random toRfc3339 seen batch ctx h.1 h.2
    rw [hdelta] at he
    cases he

/-- A batch that is projected and committed. -/
structure Call where
  batch : ActorBatch
  ctx : ProjectionCtx
  random : Nat → NodeId
  activity : Activity

/-- Project batches with one projection and commit their deltas, the last write winning. -/
def run (toRfc3339 : DateTime → String) : SeenSets → MemStore → List Call →
    Except ProjectionError MemStore
  | _, store, [] => .ok store
  | seen, store, call :: rest =>
    match project call.random toRfc3339 seen call.batch call.ctx with
    | (.error e, _) => .error e
    | (.ok delta, seen) =>
      run toRfc3339 seen (store.commitWithProvenance
        (reconcileDelta delta store .lastWriteWins) call.activity) rest

def statesOf (calls : List Call) : List SerializedState :=
  calls.flatMap fun call => call.batch.states

/-- The payload that was last supplied for an actor. -/
def lastPayload (actor : ActorId) (states : List SerializedState) : Option JsonValue :=
  (states.filter fun s => s.actor = actor).getLast?.map SerializedState.payload

/-- The store has the payload that was last supplied for each actor. -/
def KeepsLast (states : List SerializedState) (store : MemStore) : Prop :=
  ∀ actor payload, lastPayload actor states = some payload → ∃ n ∈ store.ontology.nodes.vals,
    "ActorState" ∈ n.types ∧ n.properties["actor_id"]? = some (.string actor.value) ∧
      n.properties["state"]? = some (.json payload)

/-- A state is the first one with its actor and digest. -/
def First (states : List SerializedState) (s : SerializedState) : Prop :=
  states.find? (fun t => stateKey t = stateKey s) = some s

/-- What was last supplied for an actor was supplied when one of its digests was new. -/
def LastIsFirst (states : List SerializedState) : Prop :=
  ∀ actor payload, lastPayload actor states = some payload →
    ∃ s, First states s ∧ s.actor = actor ∧ s.payload = payload

/-- What ids are minted for. -/
def subjectsOf (batch : ActorBatch) : List Minting.Subject :=
  batch.paths.map .actor ++ batch.events.map .event

/-- The hash does not collide on the texts of a run, and no random id is the hash of a state. -/
structure NoCollision (calls : List Call) : Prop where
  states : ∀ s ∈ statesOf calls, ∀ t ∈ statesOf calls, stateId s = stateId t →
    stateText s = stateText t
  subjects : ∀ call ∈ calls, call.ctx.iri ≠ .uuid → ∀ x ∈ subjectsOf call.batch,
    ∀ s ∈ statesOf calls, Id.contentAddress (utf8 (Minting.text call.ctx.iri x)) = stateId s →
      Minting.text call.ctx.iri x = stateText s
  draws : ∀ call ∈ calls, call.ctx.iri = .uuid → ∀ n, ∀ s ∈ statesOf calls,
    call.random n ≠ stateId s

/-- No path or event reads like a state. -/
def TextsApart (calls : List Call) : Prop :=
  ∀ call ∈ calls, call.ctx.iri ≠ .uuid → ∀ x ∈ subjectsOf call.batch, ∀ s ∈ statesOf calls,
    Minting.text call.ctx.iri x ≠ stateText s

omit [Blake3] in
/-- The text of a state names its actor and its digest. -/
theorem stateText_inj {s t : SerializedState} (h : stateText s = stateText t) :
    stateKey s = stateKey t := by
  have htext : ∀ u : SerializedState, (stateText u).toList =
      "state:".toList ++ (u.actor.value.toList ++ ':' :: Debug.optionChars u.digest) := by
    intro u
    simp [stateText, Debug.option]
  have hchars := congrArg String.toList h
  rw [htext, htext, List.append_cancel_left_eq, append_sep_eq_iff] at hchars
  obtain ⟨hactor, hdigest⟩ | ⟨m, -, hm⟩ | ⟨m, -, hm⟩ := hchars
  · have hoption : Debug.option s.digest = Debug.option t.digest := by
      rw [Debug.option, Debug.option, hdigest]
    exact Prod.ext (String.toList_inj.mp hactor) (Debug.option_injective hoption)
  · exact absurd hm (Debug.optionChars_ne_append _ _ m)
  · exact absurd hm (Debug.optionChars_ne_append _ _ m)

/-- What a projection emits: nodes with minted ids that are no state nodes, and the states whose
keys are new. -/
theorem project_ok {seen' : SeenSets} {delta : OntologyDelta}
    (h : project random toRfc3339 seen batch ctx = (.ok delta, seen')) : ∃ others,
      delta.nodes = others ++ (takeNew stateKey batch.states seen.stateDigests).1.map
      (stateNode ctx) ∧
      (∀ n ∈ others, "ActorState" ∉ n.types ∧ ∃ x ∈ subjectsOf batch, ∃ k i,
        Minting.mint ctx.iri (random k) x = .ok (n.id, i)) ∧
      seen'.stateDigests = (takeNew stateKey batch.states seen.stateDigests).2 := by
  obtain ⟨e, -, hproject⟩ | ⟨actors, hactors, ⟨e, -, hproject⟩ | ⟨emitted, hemitted, hproject⟩⟩ :=
    project_cases random toRfc3339 seen batch ctx
  · rw [hproject] at h
    cases h
  · rw [hproject] at h
    cases h
  · rw [hproject] at h
    cases h
    refine ⟨_, (List.append_assoc _ _ _).symm, ?_, rfl⟩
    intro n hn
    rcases List.mem_append.mp hn with hn | hn
    · obtain ⟨a, ha, rfl⟩ := List.mem_map.mp hn
      obtain ⟨hmem, k, hmint⟩ := mem_emitNew hactors ha
      exact ⟨by simp [pathNode, Node.withProperty], .actor a.1,
        List.mem_append_left _ (List.mem_map_of_mem hmem), k, a.2.2, hmint⟩
    · obtain ⟨e, he, rfl⟩ := List.mem_map.mp hn
      obtain ⟨hmem, k, hmint⟩ := mem_emitNew hemitted he
      refine ⟨?_, .event e.1, List.mem_append_right _ (List.mem_map_of_mem hmem), k, e.2.2, ?_⟩
      · rw [eventNode_properties.1]
        simp
      · rw [eventNode_id]
        exact hmint

omit [Blake3] [DebugEscapes] in
/-- The first states of a run are those seen before and the new ones among the others. -/
theorem first_append {hist states : List SerializedState} {s : SerializedState}
    (known : BTreeSet (String × Option String))
    (hkeys : ∀ k, k ∈ known ↔ ∃ s ∈ hist, stateKey s = k) :
    First (hist ++ states) s ↔ First hist s ∨ s ∈ (takeNew stateKey states known).1 := by
  rw [mem_takeNew, hkeys, First, First, List.find?_append]
  cases hfind : hist.find? fun t => stateKey t = stateKey s with
  | none =>
    have hnew : ¬∃ t ∈ hist, stateKey t = stateKey s := by
      simpa using List.find?_eq_none.mp hfind
    simp [hnew]
  | some t =>
    have hold : ∃ t ∈ hist, stateKey t = stateKey s :=
      ⟨t, List.mem_of_find?_eq_some hfind, by simpa using List.find?_some hfind⟩
    simp [hold]

omit [Blake3] [DebugEscapes] in
/-- An entry of a map after insertions was inserted or was there. -/
theorem mem_or_get_of_insertAll {κ ν : Type} [Ord κ] [Std.TransOrd κ] [Std.LawfulEqOrd κ]
    [DecidableEq κ] {f : ν → κ} {m : BTreeMap κ ν} {vs : List ν} {k : κ} {v : ν}
    (h : (BTreeMap.insertAll f m vs)[k]? = some v) : v ∈ vs ∨ m[k]? = some v := by
  induction vs generalizing m with
  | nil => exact Or.inr h
  | cons w vs ih =>
    rw [BTreeMap.insertAll_cons] at h
    obtain hmem | hget := ih h
    · exact Or.inl (List.mem_cons_of_mem _ hmem)
    · rw [BTreeMap.get_insert] at hget
      split at hget
      · exact Or.inl (Option.some.inj hget ▸ List.mem_cons_self)
      · exact Or.inr hget

/-- What holds after some states: their keys are known, the first state of each key is stored, and
no other state is, if the store had none. -/
structure After (initial : MemStore) (hist : List SerializedState) (seen : SeenSets)
    (store : MemStore) : Prop where
  keys : ∀ k, k ∈ seen.stateDigests ↔ ∃ s ∈ hist, stateKey s = k
  stored : ∀ s, First hist s →
    ∃ ctx, store.ontology.nodes[stateId s]? = some (stateNode ctx s)
  only : (∀ n ∈ initial.ontology.nodes.vals, "ActorState" ∉ n.types) →
    ∀ n ∈ store.ontology.nodes.vals, "ActorState" ∈ n.types → ∃ ctx s, First hist s ∧
    n = stateNode ctx s

/-- At first the store is as it was. -/
theorem After.start (initial : MemStore) : After initial [] .empty initial where
  keys k := by simp [SeenSets.empty]
  stored s h := by cases h
  only hnone n hn hstate := absurd hstate (hnone n hn)

/-- A projection whose delta is committed adds its states. -/
theorem After.step {initial store : MemStore} {hist : List SerializedState} {seen' : SeenSets}
    {delta : OntologyDelta} (h : After initial hist seen store)
    (hproject : project random toRfc3339 seen batch ctx = (.ok delta, seen'))
    (hhash : ∀ s ∈ hist ++ batch.states, ∀ t ∈ hist ++ batch.states, stateId s = stateId t →
      stateText s = stateText t)
    (hminted : ∀ x ∈ subjectsOf batch, ∀ k id i, Minting.mint ctx.iri (random k) x = .ok (id, i) →
      ∀ s ∈ hist ++ batch.states, id ≠ stateId s) (activity : Activity) :
    After initial (hist ++ batch.states) seen'
      (store.commitWithProvenance (reconcileDelta delta store .lastWriteWins) activity) := by
  obtain ⟨others, hnodes, hothers, hdigests⟩ := project_ok hproject
  have hcommit : (store.commitWithProvenance (reconcileDelta delta store .lastWriteWins)
      activity).ontology.nodes = BTreeMap.insertAll Node.id store.ontology.nodes delta.nodes :=
    Ontology.applyDelta_nodes _ _ _
  have hfirst := fun s => @first_append hist batch.states s seen.stateDigests h.keys
  have hmem : ∀ {s}, First (hist ++ batch.states) s → s ∈ hist ++ batch.states :=
    fun h => List.mem_of_find?_eq_some h
  have hother : ∀ n ∈ others, ∀ s ∈ hist ++ batch.states, n.id ≠ stateId s := by
    intro n hn s hs
    obtain ⟨-, x, hx, k, i, hmint⟩ := hothers n hn
    exact hminted x hx k n.id i hmint s hs
  have hkey : ∀ {s t}, First (hist ++ batch.states) s → First (hist ++ batch.states) t →
      stateId s = stateId t → s = t := by
    intro s t hs ht hid
    have heq := stateText_inj (hhash s (hmem hs) t (hmem ht) hid)
    rw [First, heq, ht] at hs
    exact (Option.some.inj hs).symm
  constructor
  · intro k
    rw [hdigests, mem_takeNew_seen, h.keys]
    simp only [List.mem_append, or_and_right, exists_or]
  · intro s hs
    rw [hcommit, hnodes]
    rcases (hfirst s).mp hs with hold | hnew
    · obtain ⟨ctx', hget⟩ := h.stored s hold
      refine ⟨ctx', ?_⟩
      rw [BTreeMap.get_insertAll_of_not_mem, hget]
      intro n hn hid
      rcases List.mem_append.mp hn with hn | hn
      · exact hother n hn s (hmem hs) hid
      · obtain ⟨t, ht, rfl⟩ := List.mem_map.mp hn
        obtain rfl := hkey ((hfirst t).mpr (Or.inr ht)) hs hid
        exact (mem_takeNew.mp ht).1 ((h.keys _).mpr ⟨t, List.mem_of_find?_eq_some hold, rfl⟩)
    · refine ⟨ctx, BTreeMap.get_insertAll_of_inj _ (v := stateNode ctx s)
        (List.mem_append_right _ (List.mem_map_of_mem hnew)) ?_⟩
      intro n hn hid
      rcases List.mem_append.mp hn with hn | hn
      · exact absurd hid (hother n hn s (hmem hs))
      · obtain ⟨t, ht, rfl⟩ := List.mem_map.mp hn
        rw [hkey ((hfirst t).mpr (Or.inr ht)) hs hid]
  · intro hnone n hn hstate
    rw [hcommit, hnodes] at hn
    obtain ⟨k, hk⟩ := BTreeMap.mem_vals.mp hn
    obtain hnew | hold := mem_or_get_of_insertAll hk
    · rcases List.mem_append.mp hnew with hn | hn
      · exact absurd hstate (hothers n hn).1
      · obtain ⟨t, ht, rfl⟩ := List.mem_map.mp hn
        exact ⟨ctx, t, (hfirst t).mpr (Or.inr ht), rfl⟩
    · obtain ⟨ctx', s, hs, hn⟩ := h.only hnone n (BTreeMap.mem_vals.mpr ⟨k, hold⟩) hstate
      exact ⟨ctx', s, (hfirst s).mpr (Or.inl hs), hn⟩

/-- A run keeps what is known of the store. -/
theorem After.run {initial store store' : MemStore} {hist : List SerializedState}
    {calls : List Call} (h : After initial hist seen store)
    (hrun : run toRfc3339 seen store calls = .ok store')
    (hhash : ∀ s ∈ hist ++ statesOf calls, ∀ t ∈ hist ++ statesOf calls, stateId s = stateId t →
      stateText s = stateText t)
    (hminted : ∀ call ∈ calls, ∀ x ∈ subjectsOf call.batch, ∀ k id i,
      Minting.mint call.ctx.iri (call.random k) x = .ok (id, i) →
        ∀ s ∈ hist ++ statesOf calls, id ≠ stateId s) :
    ∃ seen', After initial (hist ++ statesOf calls) seen' store' := by
  induction calls generalizing hist seen store with
  | nil =>
    cases hrun
    exact ⟨seen, by rwa [statesOf, List.flatMap_nil, List.append_nil]⟩
  | cons call rest ih =>
    rw [SnapshotDiff.run] at hrun
    have hstates :
      hist ++ statesOf (call :: rest) = (hist ++ call.batch.states) ++ statesOf rest := by
      rw [statesOf, List.flatMap_cons, List.append_assoc, statesOf]
    rw [hstates] at hhash hminted ⊢
    split at hrun
    · cases hrun
    · next delta seen' hproject =>
      refine ih (h.step hproject ?_ ?_ call.activity) hrun hhash ?_
      · exact fun s hs t ht => hhash s (List.mem_append_left _ hs) t (List.mem_append_left _ ht)
      · exact fun x hx k id i hmint s hs => hminted call List.mem_cons_self x hx k id i hmint s
          (List.mem_append_left _ hs)
      · exact fun call' hcall' => hminted call' (List.mem_cons_of_mem _ hcall')

/-- What is minted in a run is no id of a state. -/
theorem minted_ne_stateId {calls : List Call} (hcollision : NoCollision calls)
    (hapart : TextsApart calls) {call : Call} (hcall : call ∈ calls) {x : Minting.Subject}
    (hx : x ∈ subjectsOf call.batch) {k : Nat} {id : NodeId} {i : Option Iri}
    (hmint : Minting.mint call.ctx.iri (call.random k) x = .ok (id, i)) {s : SerializedState}
    (hs : s ∈ statesOf calls) : id ≠ stateId s := by
  by_cases hiri : call.ctx.iri = .uuid
  · have hid : id = call.random k := by
      rw [hiri] at hmint
      cases x with
      | actor path => exact (congrArg Prod.fst (Except.ok.inj hmint)).symm
      | event event => exact (congrArg Prod.fst (Except.ok.inj hmint)).symm
    rw [hid]
    exact hcollision.draws call hcall hiri k s hs
  · intro heq
    rw [Minting.mint_ok hiri hmint] at heq
    exact hapart call hcall hiri x hx s hs (hcollision.subjects call hcall hiri x hx s hs heq)

theorem stateNode_properties {s : SerializedState} :
    (stateNode ctx s).properties["actor_id"]? = some (.string s.actor.value) ∧
    (stateNode ctx s).properties["state"]? = some (.json s.payload) := by
  constructor
  · exact BTreeMap.get_ofList_of_mem (by simp) List.mem_cons_self
  · exact BTreeMap.get_ofList_of_mem (by simp) (List.mem_cons_of_mem _ List.mem_cons_self)

/-- After a run the payload that was last supplied for each actor is stored if it was supplied when
one of the digests of the actor was new; and only then, if the store had no state nodes. -/
theorem keepsLast_iff (toRfc3339 : DateTime → String) (store store' : MemStore) (calls : List Call)
    (hcollision : NoCollision calls) (hapart : TextsApart calls)
    (hrun : run toRfc3339 .empty store calls = .ok store') :
    (LastIsFirst (statesOf calls) → KeepsLast (statesOf calls) store') ∧
      ((∀ n ∈ store.ontology.nodes.vals, "ActorState" ∉ n.types) →
        KeepsLast (statesOf calls) store' → LastIsFirst (statesOf calls)) := by
  obtain ⟨seen', hafter⟩ := (After.start store).run hrun hcollision.states
    fun call hcall x hx k id i hmint s hs => minted_ne_stateId hcollision hapart hcall hx hmint hs
  rw [List.nil_append] at hafter
  constructor
  · intro h actor payload hlast
    obtain ⟨s, hfirst, rfl, rfl⟩ := h actor payload hlast
    obtain ⟨ctx, hget⟩ := hafter.stored s hfirst
    exact ⟨_, BTreeMap.mem_vals.mpr ⟨_, hget⟩, List.mem_cons_self, stateNode_properties⟩
  · intro hnone h actor payload hlast
    obtain ⟨n, hn, hstate, hactor, hpayload⟩ := h actor payload hlast
    obtain ⟨ctx, s, hfirst, rfl⟩ := hafter.only hnone n hn hstate
    obtain ⟨hactor', hpayload'⟩ := @stateNode_properties _ _ ctx s
    refine ⟨s, hfirst, ?_, ?_⟩
    · rw [hactor', Option.some.injEq, PropertyValue.string.injEq] at hactor
      exact ActorId.value_inj.mp hactor
    · rw [hpayload', Option.some.injEq, PropertyValue.json.injEq] at hpayload
      exact hpayload

end

private def urnCtx : ProjectionCtx :=
  ⟨.pathBased ⟨"urn:x"⟩, .lastWriteWins, .inducedSchema, "sample"⟩

/-- A path, and an event of an actor whose name has a blank. -/
private def blankBatch : ActorBatch :=
  ⟨[.parse "/a"], [.new (.at 1) ⟨"b c"⟩ .created .epoch], [], .at 1, none⟩

private def pathOnly : ActorBatch := { blankBatch with events := [] }

private def projectSample (seen : SeenSets) (batch : ActorBatch) :
    Except ProjectionError OntologyDelta × SeenSets :=
  @project Blake3.beginning DebugEscapes.plain (fun _ => .filled 0) (fun _ => "") seen batch urnCtx

/-- A projection fails at the event, and the path of the batch is not emitted again. -/
theorem failed_projection_swallows_path :
    (projectSample .empty blankBatch).1.toOption.isNone = true ∧
    (projectSample (projectSample .empty blankBatch).2 pathOnly).1.toOption.map
      (fun delta => delta.nodes.isEmpty) = some true ∧
    ¬@AtomicOnError Blake3.beginning DebugEscapes.plain (fun _ => .filled 0)
    (fun _ => "") .empty blankBatch
      urnCtx := by
  have hfails : (projectSample .empty blankBatch).1.toOption.isNone = true := by decide +kernel
  refine ⟨hfails, by decide +kernel, ?_⟩
  intro h
  cases hproject : (projectSample .empty blankBatch).1 with
  | ok delta =>
    rw [hproject] at hfails
    cases hfails
  | error e =>
    have hmarked : (projectSample .empty blankBatch).2.paths.contains "/a" = true := by
      decide +kernel
    rw [show (projectSample .empty blankBatch).2 = .empty from (h e hproject).1] at hmarked
    exact absurd hmarked (by decide +kernel)

/-- A call with some states. -/
private def stateCall (states : List SerializedState) : Call :=
  ⟨⟨[], [], states, .at 1, none⟩,
    ⟨.contentAddressed, .lastWriteWins, .inducedSchema, "sample"⟩, fun _ => .filled 0,
    .started "sample" (.filled 1) .epoch⟩

private def runSample (batches : List (List SerializedState)) : Except ProjectionError MemStore :=
  @run Blake3.beginning DebugEscapes.plain (fun _ => "") .empty .empty (batches.map stateCall)

private theorem statesOf_sample (batches : List (List SerializedState)) :
    statesOf (batches.map stateCall) = batches.flatten := by
  simp only [statesOf, List.flatMap_map, stateCall]
  exact List.flatMap_id

private theorem noCollision_sample {batches : List (List SerializedState)}
    (h : ∀ s ∈ batches.flatten, ∀ t ∈ batches.flatten,
      @stateId Blake3.beginning DebugEscapes.plain s =
      @stateId Blake3.beginning DebugEscapes.plain t →
        @stateText DebugEscapes.plain s = @stateText DebugEscapes.plain t) :
    @NoCollision Blake3.beginning DebugEscapes.plain (batches.map stateCall) := by
  let _ := Blake3.beginning
  let _ := DebugEscapes.plain
  constructor
  · rwa [statesOf_sample]
  · intro call hcall _ x hx
    obtain ⟨p, -, rfl⟩ := List.mem_map.mp hcall
    cases hx
  · intro call hcall hiri
    obtain ⟨p, -, rfl⟩ := List.mem_map.mp hcall
    cases hiri

private theorem textsApart_sample (batches : List (List SerializedState)) :
    @TextsApart DebugEscapes.plain (batches.map stateCall) := by
  intro call hcall _ x hx
  obtain ⟨p, -, rfl⟩ := List.mem_map.mp hcall
  cases hx

private theorem runSample_ok (batches : List (List SerializedState)) :
    ∃ store, runSample batches = .ok store := by
  let _ := Blake3.beginning
  let _ := DebugEscapes.plain
  have hrun : ∀ (batches : List (List SerializedState)) (seen : SeenSets) (store : MemStore),
      ∃ store', run (fun _ => "") seen store (batches.map stateCall) = .ok store' := by
    intro batches
    induction batches with
    | nil => exact fun _ store => ⟨store, rfl⟩
    | cons states batches ih => exact fun _ _ => ih _ _
  exact hrun batches _ _

private def sampleStore (batches : List (List SerializedState)) : MemStore :=
  match runSample batches with
  | .ok store => store
  | .error _ => .empty

private theorem runSample_eq (batches : List (List SerializedState)) :
    runSample batches = .ok (sampleStore batches) := by
  obtain ⟨store, hstore⟩ := runSample_ok batches
  rw [sampleStore, hstore]

/-- Two states of each of two actors, with digests that are new for their actors. -/
private def digestedBatches : List (List SerializedState) :=
  [[⟨⟨"a"⟩, ⟨.null, Eq.refl true⟩, none⟩, ⟨⟨"b"⟩, ⟨.bool true, Eq.refl true⟩, some "1"⟩],
    [⟨⟨"a"⟩, ⟨.bool true, Eq.refl true⟩, some "1"⟩, ⟨⟨"b"⟩, ⟨.null, Eq.refl true⟩, some "2"⟩]]

/-- Where digests are new, the last payloads are kept. -/
theorem new_digests_kept : KeepsLast (statesOf (digestedBatches.map stateCall))
    (sampleStore digestedBatches) := by
  refine (@keepsLast_iff Blake3.beginning DebugEscapes.plain (fun _ => "") .empty _
    (digestedBatches.map stateCall) (noCollision_sample (by decide +kernel)) (textsApart_sample _)
    (runSample_eq _)).1 ?_
  rw [statesOf_sample]
  have hfirst : ∀ s ∈ digestedBatches.flatten, First digestedBatches.flatten s := by
    intro s hs
    fin_cases hs <;> rfl
  intro actor payload hlast
  obtain ⟨s, hs, rfl⟩ := Option.map_eq_some_iff.mp hlast
  obtain ⟨hmem, hactor⟩ := List.mem_filter.mp (List.mem_of_getLast? hs)
  exact ⟨s, hfirst s hmem, of_decide_eq_true hactor, rfl⟩

/-- Two states of an actor without a digest. -/
private def undigestedBatches : List (List SerializedState) :=
  [[⟨⟨"a"⟩, ⟨.null, Eq.refl true⟩, none⟩], [⟨⟨"a"⟩, ⟨.bool true, Eq.refl true⟩, none⟩]]

/-- A second payload without a digest is dropped. -/
theorem second_payload_swallowed :
    @NoCollision Blake3.beginning DebugEscapes.plain (undigestedBatches.map stateCall) ∧
    @TextsApart DebugEscapes.plain (undigestedBatches.map stateCall) ∧
    runSample undigestedBatches = .ok (sampleStore undigestedBatches) ∧
    ¬KeepsLast (statesOf (undigestedBatches.map stateCall)) (sampleStore undigestedBatches) := by
  let _ := Blake3.beginning
  let _ := DebugEscapes.plain
  have hcollision : NoCollision (undigestedBatches.map stateCall) :=
    noCollision_sample (by decide +kernel)
  refine ⟨hcollision, textsApart_sample _, runSample_eq _, ?_⟩
  intro h
  obtain ⟨seen', hafter⟩ := (After.start .empty).run (runSample_eq undigestedBatches)
    hcollision.states fun call hcall x hx k id i hmint s hs =>
      minted_ne_stateId hcollision (textsApart_sample _) hcall hx hmint hs
  rw [List.nil_append, statesOf_sample] at hafter
  rw [statesOf_sample] at h
  obtain ⟨n, hn, hstate, -, hpayload⟩ := h ⟨"a"⟩ ⟨.bool true, rfl⟩ rfl
  obtain ⟨ctx, s, hfirst, rfl⟩ := hafter.only (by simp [MemStore.empty, Ontology.empty]) n hn hstate
  rw [stateNode_properties.2, Option.some.injEq, PropertyValue.json.injEq] at hpayload
  -- the first state without a digest is the one with the null
  have hkey : ∀ s ∈ undigestedBatches.flatten, stateKey s = ("a", none) := by decide +kernel
  rw [First, hkey s (List.mem_of_find?_eq_some hfirst)] at hfirst
  obtain rfl : (⟨⟨"a"⟩, ⟨.null, rfl⟩, none⟩ : SerializedState) = s := Option.some.inj hfirst
  exact absurd (congrArg Subtype.val hpayload) (by simp)

end SnapshotDiff

end AtomrOntology
