import AtomrOntology.Actor.Aggregation
import AtomrOntology.Actor.FixedSchema
import AtomrOntology.Actor.StateJoin
import AtomrOntology.Actor.Swallowing
import AtomrOntology.Validate.Shapes

/-!
# The schema of actors

A store that is seeded with the baseline schema stays free of shape errors through every run
with content-addressed ids, whatever projections feed it and however conflicts are resolved.
Each id has one role: the texts that are hashed for actors, events and states begin
differently. The nodes of a role keep its label when they are overwritten or merged, and
every edge joins the roles that its type asks for.
-/

namespace AtomrOntology

open Supervision

/-- `actor_schema`: the declarations of the actor vocabulary. -/
def Vocab.actorSchema : Schema :=
  let path : PropertyType := ⟨"path", .string, .one, none, some "Supervision path"⟩
  let kind : PropertyType :=
    ⟨"event_kind", .string, .one, none, some "Journal event classification"⟩
  let s := Schema.empty.declareNodeType (.new "Actor")
  let s := s.declareNodeType
    { NodeType.new "Workflow" with supertypes := ["Actor"], properties := [path] }
  let s := s.declareNodeType { NodeType.new "Run" with supertypes := ["Actor"] }
  let s := s.declareNodeType { NodeType.new "Step" with supertypes := ["Actor"] }
  let s := s.declareNodeType { NodeType.new "ActorPathSegment" with supertypes := ["Actor"] }
  let s := s.declareNodeType { NodeType.new "ActorEvent" with properties := [kind] }
  let s := s.declareNodeType (.new "ActorState")
  let s := s.declareNodeType (.new "ActorProjectionCursor")
  let s := s.declareEdgeType
    { EdgeType.new "supervises" with domain := ["Actor"], range := ["Actor"] }
  let s := s.declareEdgeType
    { EdgeType.new "emitted" with domain := ["Actor"], range := ["ActorEvent"] }
  let s := s.declareEdgeType { EdgeType.new "holdsState" with
    domain := ["Actor"], range := ["ActorState"], functional := true }
  s.declareEdgeType
    { EdgeType.new "successor" with domain := ["ActorEvent"], range := ["ActorEvent"] }

/-- What a node of the actor vocabulary stands for. -/
inductive ActorRole where
  | actor
  | event
  | state
deriving DecidableEq, Repr

/-- The label that every node of a role has. -/
def ActorRole.label : ActorRole → String
  | .actor => "Actor"
  | .event => "ActorEvent"
  | .state => "ActorState"

/-- The property that a node of a type has to have. -/
def requiredKey (ty : String) : Option String :=
  if ty = "Workflow" then some "path" else if ty = "ActorEvent" then some "event_kind" else none

/-- The roles that an edge joins. -/
def edgeRoles (label : String) : Option (ActorRole × ActorRole) :=
  if label = "supervises" then some (.actor, .actor)
  else if label = "emitted" then some (.actor, .event)
  else if label = "holdsState" then some (.actor, .state)
  else if label = "successor" then some (.event, .event)
  else none

/-- A node has the label of its role and the properties that its types ask for. -/
structure Plays (r : ActorRole) (n : Node) : Prop where
  label : r.label ∈ n.types
  complete : ∀ ty key, requiredKey ty = some key → ty ∈ n.types → key ∈ n.properties

/-- An edge joins the roles that its type asks for. -/
def Joins (role : NodeId → ActorRole) (e : Edge) : Prop :=
  ∀ s t, edgeRoles e.label = some (s, t) → role e.source = s ∧ role e.target = t

/-- Nodes play the roles of their ids, and edges join the roles they ask for. -/
structure Roled (role : NodeId → ActorRole) (nodes : List Node) (edges : List Edge) : Prop where
  nodes : ∀ n ∈ nodes, Plays (role n.id) n
  edges : ∀ e ∈ edges, Joins role e

section

variable {role : NodeId → ActorRole} {nodes : List Node} {edges : List Edge}

/-- A further node that plays its role keeps roles. -/
theorem Roled.pushNode (h : Roled role nodes edges) {n : Node} (hn : Plays (role n.id) n) :
    Roled role (nodes ++ [n]) edges := by
  refine ⟨?_, h.edges⟩
  rw [List.forall_mem_append]
  exact ⟨h.nodes, List.forall_mem_singleton.mpr hn⟩

/-- So does a further edge that joins roles. -/
theorem Roled.pushEdge (h : Roled role nodes edges) {e : Edge} (he : Joins role e) :
    Roled role nodes (edges ++ [e]) := by
  refine ⟨h.nodes, ?_⟩
  rw [List.forall_mem_append]
  exact ⟨h.edges, List.forall_mem_singleton.mpr he⟩

end

/-- A declared property of the baseline is required, and there is one for each type at most. -/
theorem Vocab.actorSchema_nodeTypes {t : String} {ty : NodeType}
    (h : Vocab.actorSchema.nodeTypes[t]? = some ty) {prop : PropertyType}
    (hprop : prop ∈ ty.properties) :
    prop.cardinality = .one ∧ requiredKey t = some prop.name := by
  simp only [Vocab.actorSchema, Schema.declareNodeType, Schema.declareEdgeType, Schema.empty,
    NodeType.new, BTreeMap.get_insert] at h
  repeat' split at h
  all_goals first
    | (obtain rfl := Option.some.inj h; simp at hprop)
    | (simp at h)
  all_goals
    subst hprop
    rename_i hname
    subst hname
    exact ⟨rfl, by decide⟩

/-- A declared edge type asks for the labels of the roles that it joins. -/
theorem Vocab.actorSchema_edgeTypes {label : String} {et : EdgeType}
    (h : Vocab.actorSchema.edgeTypes[label]? = some et) :
    ∃ s t, edgeRoles label = some (s, t) ∧ et.domain = [s.label] ∧ et.range = [t.label] := by
  simp only [Vocab.actorSchema, Schema.declareNodeType, Schema.declareEdgeType, Schema.empty,
    EdgeType.new, BTreeMap.get_insert] at h
  repeat' split at h
  · next hlabel => exact hlabel ▸ Option.some.inj h ▸ ⟨.event, .event, by decide, rfl, rfl⟩
  · next hlabel => exact hlabel ▸ Option.some.inj h ▸ ⟨.actor, .state, by decide, rfl, rfl⟩
  · next hlabel => exact hlabel ▸ Option.some.inj h ▸ ⟨.actor, .event, by decide, rfl, rfl⟩
  · next hlabel => exact hlabel ▸ Option.some.inj h ▸ ⟨.actor, .actor, by decide, rfl, rfl⟩
  · simp at h

/-- A store under the baseline schema in which nodes and edges keep to the roles of the ids. -/
structure Ontology.KeepsRoles (role : NodeId → ActorRole) (o : Ontology) : Prop where
  schema : o.schema = Vocab.actorSchema
  keyed : o.nodes.KeyedBy Node.id
  roled : Roled role o.nodes.vals o.edges.vals

section

variable {role : NodeId → ActorRole} {o : Ontology}

/-- An end of an edge of a role fits the label of the role. -/
theorem Ontology.KeepsRoles.fits (h : o.KeepsRoles role) {id : NodeId} {r : ActorRole}
    (hrole : role id = r) : Shapes.Fits o id [r.label] := by
  intro _ n hn
  have hid : n.id = id := h.keyed id n hn
  have hplays := h.roled.nodes n (BTreeMap.mem_vals.mpr ⟨id, hn⟩)
  rw [hid, hrole] at hplays
  exact ⟨r.label, hplays.label, r.label, List.mem_cons_self, .refl⟩

/-- Where roles are kept, shapes are. -/
theorem Ontology.KeepsRoles.checkShapes_clean [DebugEscapes] (h : o.KeepsRoles role) :
    (checkShapes o).isClean = true := by
  rw [AtomrOntology.checkShapes_clean, h.schema]
  constructor
  · intro n hn t ht ty hty prop hprop
    obtain ⟨hone, hrequired⟩ := Vocab.actorSchema_nodeTypes hty hprop
    have hmem := (h.roled.nodes n hn).complete t prop.name hrequired ht
    obtain ⟨value, hvalue⟩ :=
      Option.isSome_iff_exists.mp (Std.ExtTreeMap.mem_iff_isSome_getElem?.mp hmem)
    rw [hone, Node.valueCount, hvalue]
    rfl
  · intro e he et het
    obtain ⟨s, t, hroles, hdomain, hrange⟩ := Vocab.actorSchema_edgeTypes het
    obtain ⟨hsource, htarget⟩ := h.roled.edges e he s t hroles
    rw [hdomain, hrange]
    exact ⟨h.fits hsource, h.fits htarget⟩

/-- A reconciled node plays the role that the incoming and the stored one play. -/
theorem Plays.reconcile {conflict : ConflictResolution} {existing : Option Node} {r : ActorRole}
    {n w : Node} (hn : Plays r n) (hexisting : ∀ prev, existing = some prev → Plays r prev)
    (h : conflict.reconcile existing n = some w) : Plays r w := by
  cases conflict with
  | lastWriteWins =>
    obtain rfl := Option.some.inj h
    exact hn
  | skipExisting =>
    cases existing with
    | none =>
      obtain rfl := Option.some.inj h
      exact hn
    | some prev => cases h
  | merge =>
    cases existing with
    | none =>
      obtain rfl := Option.some.inj h
      exact hn
    | some prev =>
      have hprev := hexisting prev rfl
      obtain rfl := Option.some.inj h
      refine ⟨List.mem_append_left _ hprev.label, fun ty key hrequired hty => ?_⟩
      dsimp only
      rw [Std.ExtTreeMap.mem_iff_isSome_getElem?, BTreeMap.get_insertMany_toList]
      rcases List.mem_append.mp hty with hold | hnew
      · have hmem := hprev.complete ty key hrequired hold
        rw [Std.ExtTreeMap.mem_iff_isSome_getElem?] at hmem
        cases hkey : n.properties[key]? with
        | none => simpa using hmem
        | some value => simp
      · have hmem := hn.complete ty key hrequired (List.mem_of_mem_filter hnew)
        rw [Std.ExtTreeMap.mem_iff_isSome_getElem?] at hmem
        obtain ⟨value, hvalue⟩ := Option.isSome_iff_exists.mp hmem
        simp [hvalue]

/-- A reconciled node keeps its id. -/
theorem id_reconcile {conflict : ConflictResolution} {existing : Option Node} {n w : Node}
    (hexisting : ∀ prev, existing = some prev → prev.id = n.id)
    (h : conflict.reconcile existing n = some w) : w.id = n.id := by
  cases conflict with
  | lastWriteWins => exact congrArg Node.id (Option.some.inj h).symm
  | skipExisting =>
    cases existing with
    | none => exact congrArg Node.id (Option.some.inj h).symm
    | some prev => cases h
  | merge =>
    cases existing with
    | none => exact congrArg Node.id (Option.some.inj h).symm
    | some prev => exact (congrArg Node.id (Option.some.inj h).symm).trans (hexisting prev rfl)

variable {store : MemStore} {raw : OntologyDelta}

/-- Reconciling with a store that keeps the roles keeps them. -/
theorem Roled.reconcileDelta (h : Roled role raw.nodes raw.edges)
    (hstore : store.ontology.KeepsRoles role) (conflict : ConflictResolution) :
    Roled role (AtomrOntology.reconcileDelta raw store conflict).nodes
      (AtomrOntology.reconcileDelta raw store conflict).edges := by
  constructor
  · rw [reconcileDelta_nodes]
    intro w hw
    obtain ⟨n, hn, hreconciled⟩ := List.mem_filterMap.mp hw
    have hid := id_reconcile (fun prev hprev => hstore.keyed n.id prev hprev) hreconciled
    rw [hid]
    refine (h.nodes n hn).reconcile (fun prev hprev => ?_) hreconciled
    have hplays := hstore.roled.nodes prev (BTreeMap.mem_vals.mpr ⟨n.id, hprev⟩)
    rwa [hstore.keyed n.id prev hprev] at hplays
  · rw [reconcileDelta_edges]
    exact h.edges

/-- Committing a delta that keeps the roles keeps them. -/
theorem Ontology.KeepsRoles.applyDelta (h : o.KeepsRoles role) {delta : OntologyDelta}
    (hdelta : Roled role delta.nodes delta.edges) (p : ProvenanceId) :
    (o.applyDelta delta p).KeepsRoles role := by
  refine ⟨?_, ?_, ?_, ?_⟩
  · rw [applyDelta_eq]
    exact h.schema
  · rw [applyDelta_nodes]
    exact h.keyed.insertAll delta.nodes
  · rw [applyDelta_nodes]
    intro n hn
    exact (BTreeMap.mem_vals_of_insertAll hn).elim (hdelta.nodes n) (h.roled.nodes n)
  · rw [applyDelta_edges]
    intro e he
    exact (BTreeMap.mem_vals_of_insertAll he).elim (hdelta.edges e) (h.roled.edges e)

end

section

variable {n : Node}

/-- What it takes to be an actor. -/
theorem Plays.actor (hlabel : "Actor" ∈ n.types) (hevent : "ActorEvent" ∉ n.types)
    (hpath : "path" ∈ n.properties) : Plays .actor n := by
  refine ⟨hlabel, fun ty key hrequired hty => ?_⟩
  unfold requiredKey at hrequired
  split at hrequired
  · exact Option.some.inj hrequired ▸ hpath
  · split at hrequired
    · next heq => exact absurd (heq ▸ hty) hevent
    · cases hrequired

/-- What it takes to be an event. -/
theorem Plays.event (htypes : n.types = ["ActorEvent"]) (hkind : "event_kind" ∈ n.properties) :
    Plays .event n := by
  refine ⟨htypes ▸ List.mem_cons_self, fun ty key hrequired hty => ?_⟩
  rw [htypes, List.mem_singleton] at hty
  rw [hty] at hrequired
  exact Option.some.inj hrequired ▸ hkind

/-- What it takes to be a state. -/
theorem Plays.state (htypes : n.types = ["ActorState"]) : Plays .state n := by
  refine ⟨htypes ▸ List.mem_cons_self, fun ty key hrequired hty => ?_⟩
  rw [htypes, List.mem_singleton] at hty
  rw [hty] at hrequired
  cases hrequired

/-- A node with a further property has it and those it had. -/
theorem mem_properties_withProperty {key k : String} {v : PropertyValue} :
    key ∈ (n.withProperty k v).properties ↔ k = key ∨ key ∈ n.properties := by
  rw [Node.withProperty, Std.ExtTreeMap.mem_insert, Std.LawfulEqOrd.compare_eq_iff_eq]

/-- More properties do not matter. -/
theorem Plays.withProperty {r : ActorRole} (h : Plays r n) (k : String) (v : PropertyValue) :
    Plays r (n.withProperty k v) := by
  refine ⟨h.label, fun ty key hrequired hty => ?_⟩
  exact mem_properties_withProperty.mpr (Or.inr (h.complete ty key hrequired hty))

variable {toRfc3339 : DateTime → String} {ctx : ProjectionCtx} {id : NodeId} {i : Option Iri}
  {event : JournalEvent}

/-- The node of an event plays its role. -/
theorem plays_eventNode : Plays .event (eventNode toRfc3339 ctx event id i) := by
  unfold eventNode
  dsimp only
  split
  · exact .event rfl (by simp [mem_properties_withProperty])
  · exact .event rfl (by simp [mem_properties_withProperty])

/-- The node of a segment is an actor. -/
theorem plays_segmentNode {path : SupervisionPath} {current segment : String} {depth : Nat} :
    Plays .actor (HierarchicalDraft.segmentNode ctx path current segment depth id i) := by
  have hattributes : ∀ (kvs : List (String × JsonValue)) (n : Node), Plays .actor n →
      Plays .actor (kvs.foldl (fun node kv => node.withProperty kv.1 (.json kv.2)) n) := by
    intro kvs
    induction kvs with
    | nil => exact fun _ h => h
    | cons kv kvs ih => exact fun n h => ih _ (h.withProperty kv.1 (.json kv.2))
  have hevent : "ActorEvent" ∉ ["Actor", typeForSegment depth segment] := by
    unfold typeForSegment
    split_ifs <;> decide
  unfold HierarchicalDraft.segmentNode
  dsimp only
  split
  · exact hattributes _ _ (.actor List.mem_cons_self hevent (by simp [mem_properties_withProperty]))
  · exact .actor List.mem_cons_self hevent (by simp [mem_properties_withProperty])

end

/-- The role of what a text is hashed for: only events and states say what they are. -/
def textRole (text : String) : ActorRole :=
  if "event:".toList <+: text.toList then .event
  else if "state:".toList <+: text.toList then .state
  else .actor

theorem textRole_event (rest : String) : textRole ("event:" ++ rest) = .event := by
  rw [textRole, if_pos]
  rw [String.toList_append]
  exact List.prefix_append _ _

theorem textRole_state (rest : String) : textRole ("state:" ++ rest) = .state := by
  rw [textRole, if_neg, if_pos]
  · rw [String.toList_append]
    exact List.prefix_append _ _
  · simp

theorem textRole_flat (rest : String) : textRole ("flat:" ++ rest) = .actor := by
  rw [textRole, if_neg, if_neg] <;> simp

/-- A path starts with a slash. -/
theorem textRole_render (path : SupervisionPath) : textRole path.render = .actor := by
  have hslash : ∃ rest, path.render.toList = '/' :: rest := by
    cases hsegments : path.segments with
    | nil => exact ⟨[], by simp [SupervisionPath.render, hsegments]⟩
    | cons seg segs =>
      rw [render_eq_joined (by simp [hsegments]), toList_joined, hsegments]
      exact ⟨_, rfl⟩
  obtain ⟨rest, hrest⟩ := hslash
  rw [textRole, if_neg, if_neg] <;> simp [hrest]

section

variable [DebugEscapes]

/-- The texts that are hashed for the nodes of a batch. -/
def hashedTexts (batch : ActorBatch) : List String :=
  (visits (visited batch)).map (fun q => (SupervisionPath.parse (joined q)).render) ++
    batch.paths.map SupervisionPath.render ++
    (Flat.keysOf batch).map (Flat.nodeText .contentAddressed) ++
    batch.events.map (fun event => Minting.text .contentAddressed (.event event)) ++
    batch.states.map (fun state => "state:" ++ state.actor.value) ++
    batch.states.map SnapshotDiff.stateText

variable [Blake3]

/-- What is hashed for a batch has the role that it is hashed for. -/
structure Spelled (role : NodeId → ActorRole) (batch : ActorBatch) : Prop where
  prefixes : ∀ path ∈ visited batch, ∀ q ∈ prefixesFrom [] path.segments,
    role (Id.contentAddress (utf8 (SupervisionPath.parse (joined q)).render)) = .actor
  paths : ∀ path ∈ batch.paths, role (Id.contentAddress (utf8 path.render)) = .actor
  runs : ∀ key ∈ Flat.keysOf batch, role (Flat.nodeId .contentAddressed key) = .actor
  events : ∀ event ∈ batch.events,
    role (Id.contentAddress (utf8 (Minting.text .contentAddressed (.event event)))) = .event
  states : ∀ state ∈ batch.states,
    role (Id.contentAddress (utf8 ("state:" ++ state.actor.value))) = .state
  digests : ∀ state ∈ batch.states, role (SnapshotDiff.stateId state) = .state

variable {role : NodeId → ActorRole} {batch : ActorBatch}

/-- Texts that are hashed are given their roles. -/
theorem spelled_of_hashedTexts
    (h : ∀ text ∈ hashedTexts batch, role (Id.contentAddress (utf8 text)) = textRole text) :
    Spelled role batch := by
  simp only [hashedTexts, List.mem_append] at h
  constructor
  · intro path hpath q hq
    have hvisit : q ∈ visits (visited batch) := List.mem_flatMap.mpr ⟨path, hpath, hq⟩
    have htext := h _ (Or.inl (Or.inl (Or.inl (Or.inl (Or.inl (List.mem_map_of_mem hvisit))))))
    exact htext.trans (textRole_render _)
  · intro path hpath
    have htext := h _ (Or.inl (Or.inl (Or.inl (Or.inl (Or.inr (List.mem_map_of_mem hpath))))))
    exact htext.trans (textRole_render _)
  · intro key hkey
    have htext := h _ (Or.inl (Or.inl (Or.inl (Or.inr (List.mem_map_of_mem hkey)))))
    refine htext.trans ?_
    simp only [Flat.nodeText, String.append_assoc]
    exact textRole_flat _
  · intro event hevent
    have htext := h _ (Or.inl (Or.inl (Or.inr (List.mem_map_of_mem hevent))))
    refine htext.trans ?_
    simp only [Minting.text, String.append_assoc]
    exact textRole_event _
  · intro state hstate
    have htext := h _ (Or.inl (Or.inr (List.mem_map_of_mem hstate)))
    exact htext.trans (textRole_state _)
  · intro state hstate
    have htext := h _ (Or.inr (List.mem_map_of_mem hstate))
    refine htext.trans ?_
    simp only [SnapshotDiff.stateText, String.append_assoc]
    exact textRole_state _

end

section

variable [Blake3] {role : NodeId → ActorRole} {a b : NodeId} {label : String} {s t : ActorRole}

/-- An edge joins the roles of its label. -/
theorem joins_between (h : edgeRoles label = some (s, t)) (ha : role a = s) (hb : role b = t) :
    Joins role (.between a label b) := by
  intro s' t' h'
  obtain ⟨rfl, rfl⟩ := Prod.mk.inj (Option.some.inj (h.symm.trans h'))
  exact ⟨ha, hb⟩

/-- A draft keeps to the roles, and its prefixes are actors. -/
structure Drafted (role : NodeId → ActorRole) (d : HierarchicalDraft) : Prop where
  roled : Roled role d.nodes d.edges
  prefixes : ∀ (k : String) (id : NodeId), d.prefixToId[k]? = some id → role id = .actor

variable {random : Nat → NodeId} {toRfc3339 : DateTime → String} {ctx : ProjectionCtx}
  {path : SupervisionPath} {current segment : String} {depth : Nat} {prev : Option NodeId}
  {id : NodeId} {i : Option Iri} {d d' : HierarchicalDraft} {event : JournalEvent}
  {state : SerializedState} {pre : List String}

/-- A visit keeps roles in a draft. -/
theorem Drafted.visit (h : Drafted role d) (hid : role id = .actor)
    (hprev : ∀ parent, prev = some parent → role parent = .actor) :
    Drafted role (visit ctx path current segment depth prev id i d) := by
  refine ⟨?_, ?_⟩
  · have hnodes : Roled role
        (Supervision.visit ctx path current segment depth prev id i d).nodes d.edges := by
      rw [visit_nodes]
      split
      · exact h.roled
      · refine h.roled.pushNode ?_
        rw [segmentNode_id, hid]
        exact plays_segmentNode
    rw [visit_edges]
    cases prev with
    | none => simpa using hnodes
    | some parent =>
      have hedge : Joins role (.between parent "supervises" id) :=
        joins_between (by decide) (hprev parent rfl) hid
      exact hnodes.pushEdge hedge
  · intro k x hk
    rw [visit_prefixToId] at hk
    split at hk
    · exact h.prefixes k x hk
    · rw [BTreeMap.get_insert] at hk
      split at hk
      · exact Option.some.inj hk ▸ hid
      · exact h.prefixes k x hk

/-- Inserting segments keeps roles in a draft. -/
theorem Drafted.insertSegments {segments : List (String × Nat)} (h : Drafted role d)
    (hiri : ctx.iri = .contentAddressed)
    (htexts : ∀ q ∈ prefixesFrom pre (segments.map Prod.fst),
      role (Id.contentAddress (utf8 (SupervisionPath.parse (joined q)).render)) = .actor)
    (hprev : ∀ parent, prev = some parent → role parent = .actor)
    (hd : HierarchicalDraft.insertSegments random ctx path segments (joined pre) prev d = .ok d') :
    Drafted role d' := by
  induction segments generalizing pre prev d with
  | nil =>
    cases hd
    exact h
  | cons s rest ih =>
    obtain ⟨segment, depth⟩ := s
    obtain ⟨id, i, hmint, hrest⟩ := insertSegments_cons.mp hd
    rw [← joined_append_singleton] at hmint hrest
    have hid : role id = .actor := by
      rw [hiri] at hmint
      obtain ⟨rfl, -⟩ := Prod.mk.inj (Except.ok.inj hmint)
      exact htexts _ List.mem_cons_self
    refine ih (h.visit hid hprev) ?_ ?_ hrest
    · exact fun q hq => htexts q (List.mem_cons_of_mem _ hq)
    · exact fun parent hparent => Option.some.inj hparent ▸ hid

/-- Inserting a path keeps roles in a draft. -/
theorem Drafted.insertPath (h : Drafted role d) (hiri : ctx.iri = .contentAddressed)
    (htexts : ∀ q ∈ prefixesFrom [] path.segments,
      role (Id.contentAddress (utf8 (SupervisionPath.parse (joined q)).render)) = .actor)
    (hd : HierarchicalDraft.insertPath random ctx d path = .ok d') : Drafted role d' := by
  have htexts' : ∀ q ∈ prefixesFrom [] (path.segments.zipIdx.map Prod.fst),
      role (Id.contentAddress (utf8 (SupervisionPath.parse (joined q)).render)) = .actor := by
    rw [List.zipIdx_map_fst]
    exact htexts
  refine h.insertSegments hiri htexts' ?_ hd
  intro parent hparent
  cases hparent

/-- An emitted event keeps roles in a draft. -/
theorem Drafted.emit (h : Drafted role d) (hid : role id = .event) :
    Drafted role (emit toRfc3339 ctx event id i d) := by
  have hnodes : Roled role (d.nodes ++ [eventNode toRfc3339 ctx event id i]) d.edges := by
    refine h.roled.pushNode ?_
    rw [eventNode_id, hid]
    exact plays_eventNode
  unfold Supervision.emit
  dsimp only
  split
  · exact ⟨hnodes, h.prefixes⟩
  · split
    · next actorId hget =>
      refine ⟨hnodes.pushEdge ?_, h.prefixes⟩
      exact joins_between (by decide) (h.prefixes _ actorId hget) hid
    · exact ⟨hnodes, h.prefixes⟩

/-- A state keeps roles in a draft. -/
theorem Drafted.insertState (h : Drafted role d)
    (hid : role (Id.contentAddress (utf8 ("state:" ++ state.actor.value))) = .state) :
    Drafted role (HierarchicalDraft.insertState ctx d state) := by
  obtain ⟨hids, hedges⟩ := @insertState_spec ctx state d _
  refine ⟨?_, hids.symm ▸ h.prefixes⟩
  have hnodes : Roled role (d.nodes ++ [stateNode ctx state]) d.edges := by
    refine h.roled.pushNode ?_
    rw [stateNode, hid]
    exact .state rfl
  rw [attaches_insertState.nodes, hedges]
  cases hholder : holder d.prefixToId state.actor with
  | none => simpa using hnodes
  | some kv =>
    obtain ⟨hget, -⟩ := holder_eq_some hholder
    exact hnodes.pushEdge (joins_between (by decide) (h.prefixes kv.1 kv.2 hget) hid)

end

section

variable [Blake3] [DebugEscapes] {role : NodeId → ActorRole} {random : Nat → NodeId}
  {toRfc3339 : DateTime → String} {ctx : ProjectionCtx} {batch : ActorBatch}

/-- The draft of a batch keeps to the roles. -/
theorem Spelled.drafted (h : Spelled role batch) (hiri : ctx.iri = .contentAddressed)
    {d : HierarchicalDraft} (hd : HierarchicalDraft.ofBatch random toRfc3339 ctx batch = .ok d) :
    Drafted role d := by
  obtain ⟨d₁, d₂, hpaths, hevents, rfl⟩ := ofBatch_ok_iff.mp hd
  have hempty : Drafted role .empty := by
    refine ⟨⟨fun n hn => absurd hn List.not_mem_nil, fun e he => absurd he List.not_mem_nil⟩, ?_⟩
    intro k id hk
    simp [HierarchicalDraft.empty] at hk
  have hafter : Drafted role d₁ := by
    refine foldlM_induction (P := fun _ d => Drafted role d) hempty ?_ hpaths
    intro done path s t hwithin hdrafted hstep
    have hpath : path ∈ batch.paths := hwithin.subset List.mem_concat_self
    exact hdrafted.insertPath hiri (h.prefixes path (List.mem_append_left _ hpath)) hstep
  have hemitted : Drafted role d₂ := by
    refine foldlM_induction (P := fun _ d => Drafted role d) hafter ?_ hevents
    intro done event s t hwithin hdrafted hstep
    have hevent : event ∈ batch.events := hwithin.subset List.mem_concat_self
    obtain ⟨u, id, i, hinsert, hmint, rfl⟩ := insertEvent_ok hstep
    rw [hiri] at hmint
    obtain ⟨rfl, -⟩ := Prod.mk.inj (Except.ok.inj hmint)
    refine Drafted.emit ?_ (h.events event hevent)
    refine foldlM_induction (P := fun _ d => Drafted role d) hdrafted ?_ hinsert
    intro done' path s' t' hwithin' hdrafted' hstep'
    have hpath := Option.mem_toList.mp (hwithin'.subset List.mem_concat_self)
    have hvisited : path ∈ visited batch :=
      List.mem_append_right _ (List.mem_filterMap.mpr ⟨event, hevent, hpath⟩)
    exact hdrafted'.insertPath hiri (h.prefixes path hvisited) hstep'
  have hstates : ∀ (states : List SerializedState) (d : HierarchicalDraft), states ⊆ batch.states →
      Drafted role d → Drafted role (states.foldl (HierarchicalDraft.insertState ctx) d) := by
    intro states
    induction states with
    | nil => exact fun _ _ h => h
    | cons state states ih =>
      intro d hsub hdrafted
      obtain ⟨hstate, hrest⟩ := List.cons_subset.mp hsub
      exact ih _ hrest (hdrafted.insertState (h.states state hstate))
  exact hstates batch.states d₂ (List.Subset.refl _) hemitted

omit [DebugEscapes] in
/-- Events in a chain. -/
theorem roled_eventStream {events : List JournalEvent} (hiri : ctx.iri = .contentAddressed)
    (hevents : ∀ event ∈ events,
      role (Id.contentAddress (utf8 (Minting.text .contentAddressed (.event event)))) = .event)
    {prev : Option NodeId} (hprev : ∀ id, prev = some id → role id = .event) {minted : Nat}
    {nodes : List Node} {edges : List Edge}
    (h : eventStream random toRfc3339 ctx events prev minted = .ok (nodes, edges)) :
    Roled role nodes edges := by
  induction events generalizing prev minted nodes edges with
  | nil =>
    cases h
    exact ⟨fun n hn => absurd hn List.not_mem_nil, fun e he => absurd he List.not_mem_nil⟩
  | cons event rest ih =>
    obtain ⟨⟨id, i⟩, hmint, hmore⟩ := bind_eq_ok.mp h
    obtain ⟨⟨nodes', edges'⟩, hrest, hpure⟩ := bind_eq_ok.mp hmore
    have hid : role id = .event := by
      rw [hiri] at hmint
      obtain ⟨rfl, -⟩ := Prod.mk.inj (Except.ok.inj hmint)
      exact hevents event List.mem_cons_self
    have hroled := ih (fun e he => hevents e (List.mem_cons_of_mem _ he))
      (fun _ hsome => Option.some.inj hsome ▸ hid) hrest
    have hnode : Plays (role (eventNode toRfc3339 ctx event id i).id)
        (eventNode toRfc3339 ctx event id i) := by
      rw [eventNode_id, hid]
      exact plays_eventNode
    cases prev with
    | none =>
      cases hpure
      refine ⟨List.forall_mem_cons.mpr ⟨?_, hroled.nodes⟩, hroled.edges⟩
      cases event.path with
      | none => exact hnode
      | some path => exact hnode.withProperty _ _
    | some prev =>
      cases hpure
      have hedge : Joins role (.between prev "successor" id) :=
        joins_between (by decide) (hprev prev rfl) hid
      refine ⟨List.forall_mem_cons.mpr ⟨?_, hroled.nodes⟩,
        List.forall_mem_cons.mpr ⟨hedge, hroled.edges⟩⟩
      cases event.path with
      | none => exact hnode
      | some path => exact hnode.withProperty _ _

omit [DebugEscapes] in
/-- Every node of the flat projection is that of a bucket. -/
theorem exists_bucket {buckets : List (Flat.RunKey × Flat.FlatBucket)} {nodes : List Node}
    (h : Flat.nodesOf ctx buckets = .ok nodes) {n : Node} (hn : n ∈ nodes) :
    ∃ kb ∈ buckets, Flat.nodeOf ctx kb.1 kb.2 = .ok n := by
  have hforall := Flat.nodesOf_ok h
  obtain ⟨k, hk, rfl⟩ := List.getElem_of_mem hn
  have hk' : k < buckets.length := hforall.length_eq ▸ hk
  exact ⟨buckets[k], List.getElem_mem hk', hforall.get hk' hk⟩

/-- The node of each workflow and run. -/
theorem Spelled.roled_flat (h : Spelled role batch) (hiri : ctx.iri = .contentAddressed)
    {nodes : List Node}
    (hnodes : Flat.nodesOf ctx (Flat.buckets toRfc3339 batch).toList = .ok nodes) :
    Roled role nodes [] := by
  refine ⟨fun n hn => ?_, fun e he => absurd he List.not_mem_nil⟩
  obtain ⟨kb, hkb, hnode⟩ := exists_bucket hnodes hn
  have hkey : kb.1 ∈ Flat.keysOf batch := by
    rw [← Flat.mem_keys_buckets, ← Std.ExtTreeMap.map_fst_toList_eq_keys]
    exact List.mem_map_of_mem hkb
  have hrole : role n.id = .actor := by
    rw [(Flat.nodeOf_ok hnode).1, hiri]
    exact h.runs kb.1 hkey
  rw [hrole]
  obtain ⟨⟨id, i⟩, -, hpure⟩ := bind_eq_ok.mp hnode
  cases hpure
  exact .actor List.mem_cons_self (by simp [Node.withProperty])
    (by simp [mem_properties_withProperty])

/-- What the projections without memory project keeps to the roles. -/
theorem Spelled.roled_project (h : Spelled role batch) (hiri : ctx.iri = .contentAddressed)
    {kind : ProjectionKind} {label : String} {delta : OntologyDelta}
    (hdelta : (kind.strategy random toRfc3339 label).project batch ctx = .ok delta) :
    Roled role delta.nodes delta.edges := by
  cases kind with
  | hierarchical =>
    obtain ⟨d, hd, rfl⟩ := project_ok_iff.mp hdelta
    exact (h.drafted hiri hd).roled
  | eventStream =>
    simp only [ProjectionKind.strategy, eventStreamProjection] at hdelta
    split at hdelta
    · next nodes edges hstream =>
      cases hdelta
      refine roled_eventStream hiri h.events ?_ hstream
      intro id hnone
      cases hnone
    · cases hdelta
  | flat =>
    simp only [ProjectionKind.strategy, Flat.flatProjection] at hdelta
    split at hdelta
    · next nodes hnodes =>
      cases hdelta
      exact h.roled_flat hiri hnodes
    · cases hdelta

omit [DebugEscapes] in
/-- Successors join events. -/
theorem joins_successors {ids : List NodeId} (h : ∀ id ∈ ids, role id = .event) :
    ∀ e ∈ SnapshotDiff.successors ids, Joins role e := by
  induction ids with
  | nil => exact fun e he => absurd he List.not_mem_nil
  | cons prev ids ih =>
    cases ids with
    | nil => exact fun e he => absurd he List.not_mem_nil
    | cons id rest =>
      rw [List.forall_mem_cons] at h
      refine List.forall_mem_cons.mpr ⟨?_, ih h.2⟩
      exact joins_between (by decide) h.1 (h.2 id List.mem_cons_self)

/-- What a projection that remembers projects keeps to the roles. -/
theorem Spelled.roled_snapshotDiff (h : Spelled role batch) (hiri : ctx.iri = .contentAddressed)
    {seen : SnapshotDiff.SeenSets} {delta : OntologyDelta}
    (hdelta : (SnapshotDiff.project random toRfc3339 seen batch ctx).1 = .ok delta) :
    Roled role delta.nodes delta.edges := by
  obtain ⟨e, -, hproject⟩ | ⟨actors, hactors, ⟨e, -, hproject⟩ | ⟨emitted, hemitted, hproject⟩⟩ :=
    SnapshotDiff.project_cases random toRfc3339 seen batch ctx
  · rw [hproject] at hdelta
    cases hdelta
  · rw [hproject] at hdelta
    cases hdelta
  · rw [hproject] at hdelta
    cases hdelta
    have hevents : ∀ x ∈ emitted, role x.2.1 = .event := by
      intro x hx
      obtain ⟨hmem, k, hmint⟩ := SnapshotDiff.mem_emitNew hemitted hx
      rw [hiri] at hmint
      rw [← congrArg Prod.fst (Except.ok.inj hmint)]
      exact h.events x.1 hmem
    refine ⟨fun n hn => ?_, joins_successors ?_⟩
    · rcases List.mem_append.mp hn with hpath | hmore
      · obtain ⟨x, hx, rfl⟩ := List.mem_map.mp hpath
        obtain ⟨hmem, k, hmint⟩ := SnapshotDiff.mem_emitNew hactors hx
        have hrole : role x.2.1 = .actor := by
          rw [hiri] at hmint
          rw [← congrArg Prod.fst (Except.ok.inj hmint)]
          exact h.paths x.1 hmem
        have hplays : Plays .actor (SnapshotDiff.pathNode ctx x.1 x.2.1 x.2.2) :=
          .actor List.mem_cons_self (by simp [SnapshotDiff.pathNode, Node.withProperty])
            (by simp [SnapshotDiff.pathNode, mem_properties_withProperty])
        exact hrole.symm ▸ hplays
      · rcases List.mem_append.mp hmore with hevent | hstate
        · obtain ⟨x, hx, rfl⟩ := List.mem_map.mp hevent
          rw [eventNode_id, hevents x hx]
          exact plays_eventNode
        · obtain ⟨state, hstate', rfl⟩ := List.mem_map.mp hstate
          have hrole : role (SnapshotDiff.stateId state) = .state :=
            h.digests state (List.mem_of_find?_eq_some (SnapshotDiff.mem_takeNew.mp hstate').2)
          exact hrole.symm ▸ Plays.state rfl
    · intro id hid
      obtain ⟨x, hx, rfl⟩ := List.mem_map.mp hid
      exact hevents x hx

end

section

variable [Blake3] [DebugEscapes]

/-- One of the four projections, whatever ids it would draw and whatever it remembers. -/
def BuiltIn (toRfc3339 : DateTime → String) (projection : ProjectionStrategy) : Prop :=
  (∃ (kind : ProjectionKind) (random : Nat → NodeId) (label : String),
    projection = kind.strategy random toRfc3339 label) ∨
  ∃ (random : Nat → NodeId) (seen : SnapshotDiff.SeenSets), ∀ batch ctx,
    projection.project batch ctx = (SnapshotDiff.project random toRfc3339 seen batch ctx).1

variable {toRfc3339 : DateTime → String} {role : NodeId → ActorRole}

/-- A batch keeps the roles in a store. -/
theorem Ontology.KeepsRoles.run_one {p : Projector} {store : MemStore}
    (hstore : store.ontology.KeepsRoles role) (hiri : p.ctx.iri = .contentAddressed)
    (hbuilt : BuiltIn toRfc3339 p.projection) {batch : ActorBatch} (hspelled : Spelled role batch)
    (report : ProjectorReport) (stamp : Stamp) :
    (p.run store report [(batch, stamp)]).2.ontology.KeepsRoles role := by
  obtain ⟨e, hrun⟩ | ⟨report', hrun⟩ | ⟨report', raw, hraw, -, hrun⟩ :=
    p.run_one_cases store report batch stamp
  · rw [hrun]
    exact hstore
  · rw [hrun]
    exact hstore
  · have hroled : Roled role raw.nodes raw.edges := by
      obtain ⟨kind, random, label, heq⟩ | ⟨random, seen, heq⟩ := hbuilt
      · rw [heq] at hraw
        exact hspelled.roled_project hiri hraw
      · rw [heq] at hraw
        exact hspelled.roled_snapshotDiff hiri hraw
    rw [hrun]
    exact hstore.applyDelta (hroled.reconcileDelta hstore p.ctx.conflict) _

/-- A drain of built-in arrivals keeps roles. -/
theorem Ontology.KeepsRoles.drain {p : Projector} {store : MemStore}
    (hstore : store.ontology.KeepsRoles role) (hiri : p.ctx.iri = .contentAddressed)
    {batches : List Projector.Arrival} (hbuilt : ∀ b ∈ batches, BuiltIn toRfc3339 b.1)
    (hspelled : ∀ b ∈ batches, Spelled role b.2.1) (report : ProjectorReport) :
    (p.drain store report batches).2.ontology.KeepsRoles role := by
  induction batches generalizing store report with
  | nil => exact hstore
  | cons b rest ih =>
    obtain ⟨projection, batch, stamp⟩ := b
    rw [List.forall_mem_cons] at hbuilt hspelled
    have hone := Ontology.KeepsRoles.run_one (p := { p with projection }) hstore hiri hbuilt.1
      hspelled.1 report stamp
    rw [Projector.drain]
    split
    · next report' store' hrun =>
      rw [hrun] at hone
      exact ih hone hbuilt.2 hspelled.2 report'
    · next e store' hrun =>
      rw [hrun] at hone
      exact hone

/-- A store that is seeded with the baseline schema has no shape errors after any run of the
built-in projections with content-addressed ids, if the hash does not collide on its texts. -/
theorem Projector.checkShapes_drain (p : Projector) (hiri : p.ctx.iri = .contentAddressed)
    (toRfc3339 : DateTime → String) (report : ProjectorReport) (batches : List Projector.Arrival)
    (hbuilt : ∀ b ∈ batches, BuiltIn toRfc3339 b.1)
    (hhash : Set.InjOn (fun text => (Id.contentAddress (utf8 text) : NodeId))
      {text | ∃ b ∈ batches, text ∈ hashedTexts b.2.1}) :
    (checkShapes (p.drain (.fromOntology { Ontology.empty with schema := Vocab.actorSchema })
      report batches).2.ontology).isClean = true := by
  let hash : String → NodeId := fun text => Id.contentAddress (utf8 text)
  let all : Set String := {text | ∃ b ∈ batches, text ∈ hashedTexts b.2.1}
  -- an id has the role of the one text that it is the hash of
  let role : NodeId → ActorRole := fun id => textRole (Function.invFunOn hash all id)
  have hspelled : ∀ b ∈ batches, Spelled role b.2.1 := by
    intro b hb
    refine spelled_of_hashedTexts fun text htext => ?_
    exact congrArg textRole (hhash.leftInvOn_invFunOn ⟨b, hb, htext⟩)
  have hseeded : Ontology.KeepsRoles role
      (MemStore.fromOntology { Ontology.empty with schema := Vocab.actorSchema }).ontology := by
    refine ⟨rfl, .empty _, ?_, ?_⟩
    · intro n hn
      simp [MemStore.fromOntology, Ontology.empty] at hn
    · intro e he
      simp [MemStore.fromOntology, Ontology.empty] at he
  exact (hseeded.drain hiri hbuilt hspelled report).checkShapes_clean

end

/-- A batch with a workflow, an event at it, and its state. -/
private def workflowBatch : ActorBatch :=
  ⟨[.parse "/workflow/a"], [{ JournalEvent.new (.at 1) ⟨"a"⟩ .created .epoch with
    path := some (.parse "/workflow/a") }], [⟨⟨"a"⟩, ⟨.null, Eq.refl true⟩, none⟩],
    .at 1, none⟩

private def rolesProjector (kind : ProjectionKind) : Projector :=
  ⟨@ProjectionKind.strategy Blake3.beginning (fun _ => .filled 0) (fun _ => "") "" kind,
    ⟨.contentAddressed, .merge, .hybrid Vocab.actorSchema, "sample"⟩, .software "agent" "agent"⟩

private def workflowArrival (kind : ProjectionKind) (stamp : UInt8) : Projector.Arrival :=
  ((rolesProjector kind).projection, workflowBatch, ⟨.filled stamp, .epoch, .epoch⟩)

private theorem builtIn_workflowArrival (kind : ProjectionKind) (stamp : UInt8) :
    @BuiltIn Blake3.beginning DebugEscapes.plain (fun _ => "") (workflowArrival kind stamp).1 :=
  Or.inl ⟨kind, _, "", rfl⟩

private theorem injOn_workflowBatch : Set.InjOn
    (fun text => (@Id.contentAddress Blake3.beginning .node (utf8 text)))
    {text | text ∈ @hashedTexts DebugEscapes.plain workflowBatch} := by
  have hall : ∀ s ∈ @hashedTexts DebugEscapes.plain workflowBatch,
      ∀ t ∈ @hashedTexts DebugEscapes.plain workflowBatch,
        @Id.contentAddress Blake3.beginning .node (utf8 s) =
          @Id.contentAddress Blake3.beginning .node (utf8 t) → s = t := by
    decide +kernel
  exact fun s hs t ht => hall s hs t ht

/-- A workflow is projected as a tree, then its events as a stream, then its run. -/
private def workflowRun : Except ProjectionError ProjectorReport × MemStore :=
  (rolesProjector .hierarchical).drain
    (.fromOntology { Ontology.empty with schema := Vocab.actorSchema }) ⟨0, 0, 0, 0⟩
    [workflowArrival .hierarchical 1, workflowArrival .eventStream 2, workflowArrival .flat 3]

/-- The three batches are written, and the store has no shape errors. -/
theorem Projector.checkShapes_drain_workflow :
    workflowRun.1 = .ok ⟨3, 7, 4, 3⟩ ∧
      (@checkShapes DebugEscapes.plain workflowRun.2.ontology).isClean = true := by
  refine ⟨by decide +kernel, ?_⟩
  refine @checkShapes_drain Blake3.beginning DebugEscapes.plain _ rfl (fun _ => "") _ _ ?_ ?_
  · simp only [List.forall_mem_cons, builtIn_workflowArrival, true_and]
    exact fun _ hb => absurd hb List.not_mem_nil
  · refine injOn_workflowBatch.mono ?_
    intro text htext
    obtain ⟨b, hb, hmem⟩ := htext
    have hbatch : b.2.1 = workflowBatch := by
      simp only [List.mem_cons, List.not_mem_nil, or_false] at hb
      obtain rfl | rfl | rfl := hb <;> rfl
    exact hbatch ▸ hmem

end AtomrOntology
