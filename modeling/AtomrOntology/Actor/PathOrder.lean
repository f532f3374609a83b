import AtomrOntology.Actor.Supervision

/-!
# Does the order of the paths matter?

Only the first visit of a path prefix makes its node, and the attributes of a path go to its leaf
while that node is made. They are lost when a longer path has visited the leaf before. The paths
of a batch can be permuted exactly if no path with attributes is the beginning of another.
-/

namespace AtomrOntology

namespace Supervision

variable {random : Nat → NodeId} {toRfc3339 : DateTime → String} {label : String}
  {ctx : ProjectionCtx} {path path' : SupervisionPath} {q q' front : List String}
  {id id' : NodeId} {i i' : Option Iri} {d d' : HierarchicalDraft}
  {seen : List (SupervisionPath × List String)} {paths paths' : List SupervisionPath}

/-- The attributes that a path has for the node of one of its prefixes. -/
def leafAttributes (path : SupervisionPath) (q : List String) : BTreeMap String JsonValue :=
  if q = path.segments then path.attributes else ∅

/-- The node that a path has for one of its prefixes. -/
def prefixNode (ctx : ProjectionCtx) (path : SupervisionPath) (q : List String) (id : NodeId)
    (iri : Option Iri) : Node :=
  HierarchicalDraft.segmentNode ctx path (joined q) (q.getLastD "") (q.length - 1) id iri

/-- Attached attributes hide the properties of the node. -/
theorem get_attach (attributes : BTreeMap String JsonValue) (n : Node) (k : String) :
    (attributes.toList.foldl (fun node kv => node.withProperty kv.1 (.json kv.2))
      n).properties[k]? = (attributes[k]?.map .json).or n.properties[k]? := by
  have hfold : ∀ (kvs : List (String × JsonValue)) (n : Node),
      (kvs.foldl (fun node kv => node.withProperty kv.1 (.json kv.2)) n).properties =
        n.properties.insertMany (kvs.map fun kv => (kv.1, PropertyValue.json kv.2)) := by
    intro kvs
    induction kvs with
    | nil =>
      intro n
      simp
    | cons kv kvs ih =>
      intro n
      rw [List.foldl_cons, ih, List.map_cons, Std.ExtTreeMap.insertMany_cons]
      rfl
  rw [hfold]
  cases hk : attributes[k]? with
  | some v =>
    have hd : (attributes.toList.map fun kv => (kv.1, PropertyValue.json kv.2)).Pairwise
        fun a b => ¬compare a.1 b.1 = .eq :=
      List.pairwise_map.mpr Std.ExtTreeMap.distinct_keys_toList
    rw [Std.ExtTreeMap.getElem?_insertMany_list_of_mem Std.ReflCmp.compare_self hd
      (List.mem_map.mpr ⟨(k, v), Std.ExtTreeMap.mem_toList_iff_getElem?_eq_some.mpr hk, rfl⟩)]
    rfl
  | none =>
    rw [Std.ExtTreeMap.getElem?_insertMany_list_of_contains_eq_false]
    · rfl
    · rw [List.map_map, List.contains_eq_mem, decide_eq_false_iff_not]
      intro hmem
      have hkeys : k ∈ attributes.keys := by
        rw [← Std.ExtTreeMap.map_fst_toList_eq_keys]
        exact hmem
      rw [Std.ExtTreeMap.mem_keys, Std.ExtTreeMap.mem_iff_isSome_getElem?, hk] at hkeys
      cases hkeys

/-- The whole path is the prefix of full length. -/
theorem leaf_iff (hne : q ≠ []) (hq : q <+: path.segments) :
    q.length - 1 + 1 = path.segments.length ↔ q = path.segments := by
  have hpos := List.length_pos_of_ne_nil hne
  constructor
  · intro h
    exact hq.eq_of_length (by omega)
  · intro h
    rw [← h]
    omega

/-- The node that a prefix has without attributes. -/
def bareNode (ctx : ProjectionCtx) (q : List String) (id : NodeId) (iri : Option Iri) : Node :=
  prefixNode ctx ⟨[], ⟨""⟩, ∅⟩ q id iri

/-- The node of a prefix is determined by the prefix and the attributes for it. -/
theorem prefixNode_eq (hne : q ≠ []) (hq : q <+: path.segments) :
    prefixNode ctx path q id i =
      (leafAttributes path q).toList.foldl (fun node kv => node.withProperty kv.1 (.json kv.2))
        (bareNode ctx q id i) := by
  unfold bareNode prefixNode HierarchicalDraft.segmentNode leafAttributes
  simp only [leaf_iff hne hq, List.length_nil, Nat.add_eq_zero_iff, one_ne_zero, and_false,
    if_false]
  split
  · rfl
  · rw [show (∅ : BTreeMap String JsonValue).toList = [] by simp]
    rfl

/-- Without attributes at its end, a prefix has a bare node. -/
theorem prefixNode_of_empty (hne : q ≠ []) (hq : q <+: path.segments)
    (h : leafAttributes path q = ∅) : prefixNode ctx path q id i = bareNode ctx q id i := by
  rw [prefixNode_eq hne hq, h, show (∅ : BTreeMap String JsonValue).toList = [] by simp]
  rfl

/-- Paths with the same attributes at the end of a prefix give it the same node. -/
theorem prefixNode_congr (hne : q ≠ []) (hq : q <+: path.segments) (hq' : q <+: path'.segments)
    (h : leafAttributes path q = leafAttributes path' q) :
    prefixNode ctx path q id i = prefixNode ctx path' q id i := by
  rw [prefixNode_eq hne hq, prefixNode_eq hne hq', h]

/-- The node of a prefix has the id that was minted. -/
theorem prefixNode_id : (prefixNode ctx path q id i).id = id := segmentNode_id

/-- The node of a prefix has the attributes at its end, and what a bare node has. -/
theorem get_prefixNode (hne : q ≠ []) (hq : q <+: path.segments) (k : String) :
    (prefixNode ctx path q id i).properties[k]? =
      ((leafAttributes path q)[k]?.map PropertyValue.json).or
        (bareNode ctx q id i).properties[k]? := by
  rw [prefixNode_eq hne hq, get_attach]

/-- The node is for the prefix with a text, and no path has put attributes on it. -/
def IsBare (text : String) (n : Node) : Prop :=
  n.properties["path"]? = some (.string text) ∧
    ∀ (k : String) (v : JsonValue), n.properties[k]? ≠ some (.json v)

/-- A bare node is bare. -/
theorem isBare_bareNode : IsBare (joined q) (bareNode ctx q id i) := by
  have hget : ∀ k, (bareNode ctx q id i).properties[k]? =
      if "source_label" = k then some (.string ctx.sourceLabel)
      else if "depth" = k then some (.integer (UInt64.ofNat (q.length - 1)).toInt64)
      else if "segment" = k then some (.string (q.getLastD ""))
      else if "path" = k then some (.string (joined q)) else none := by
    intro k
    unfold bareNode prefixNode HierarchicalDraft.segmentNode
    simp only [List.length_nil, Nat.add_eq_zero_iff, one_ne_zero, and_false, if_false,
      Node.withProperty, BTreeMap.get_insert]
    simp
  constructor
  · rw [hget]
    simp
  · intro k v h
    rw [hget] at h
    split_ifs at h <;> cases h

/-- A path can put JSON on the node of a prefix, but no other text. -/
theorem current_of_isBare {text current segment : String} {depth : Nat}
    (h : IsBare text (HierarchicalDraft.segmentNode ctx path current segment depth id i)) :
    text = current := by
  have hpath := h.1
  unfold HierarchicalDraft.segmentNode at hpath
  dsimp only at hpath
  split at hpath
  · rw [get_attach] at hpath
    cases hk : path.attributes["path"]? with
    | some v =>
      rw [hk] at hpath
      cases hpath
    | none =>
      simp only [hk, Node.withProperty, BTreeMap.get_insert] at hpath
      simpa [eq_comm] using hpath
  · simp only [Node.withProperty, BTreeMap.get_insert] at hpath
    simpa [eq_comm] using hpath

/-- The node of a prefix is bare exactly if there are no attributes at its end. -/
theorem isBare_prefixNode_iff {text : String} (hne : q ≠ []) (hq : q <+: path.segments) :
    IsBare text (prefixNode ctx path q id i) ↔ text = joined q ∧ leafAttributes path q = ∅ := by
  constructor
  · intro h
    refine ⟨current_of_isBare h, ?_⟩
    apply Std.ExtTreeMap.ext_getElem?
    intro k
    cases hk : (leafAttributes path q)[k]? with
    | none => simp
    | some v =>
      have hjson := h.2 k v
      rw [get_prefixNode hne hq, hk] at hjson
      exact absurd rfl hjson
  · intro h
    obtain ⟨rfl, hempty⟩ := h
    rw [prefixNode_of_empty hne hq hempty]
    exact isBare_bareNode

section

variable [Blake3]

/-- Every mint of a path text yields an id and an IRI. -/
def Mints (ctx : ProjectionCtx) (text : String) (id : NodeId) (iri : Option Iri) : Prop :=
  ∀ r, ctx.iri.mintActor r (.parse text) = .ok (id, iri)

/-- Unless ids are random, what was minted once is minted every time. -/
theorem mints_of_ne_uuid {r : NodeId} {text : String} (hiri : ctx.iri ≠ .uuid)
    (h : ctx.iri.mintActor r (.parse text) = .ok (id, i)) : Mints ctx text id i :=
  fun r' => (IriMintingStrategy.mintActor_of_ne_uuid hiri r' r _).trans h

/-- One text is given one id. -/
theorem Mints.unique {text : String} (h : Mints ctx text id i) (h' : Mints ctx text id' i') :
    id = id' ∧ i = i' := by
  have hsame := (h id).symm.trans (h' id)
  simpa using hsame

/-- The edge that the visit of a prefix makes. -/
def MakesEdge (ctx : ProjectionCtx) (q : List String) (e : Edge) : Prop :=
  ∃ front seg a i b j, q = front ++ [seg] ∧ front ≠ [] ∧ Mints ctx (joined front) a i ∧
    Mints ctx (joined q) b j ∧ e = .between a "supervises" b

/-- The node that the visit of a prefix makes if there is none yet. -/
def MakesNode (ctx : ProjectionCtx) (path : SupervisionPath) (q : List String) (n : Node) : Prop :=
  ∃ id i, Mints ctx (joined q) id i ∧ n = prefixNode ctx path q id i

/-- The prefixes of some paths, each with the path that visits it. -/
def steps (paths : List SupervisionPath) : List (SupervisionPath × List String) :=
  paths.flatMap fun path => (prefixesFrom [] path.segments).map (path, ·)

omit [Blake3] in
/-- The steps of paths are their prefixes. -/
theorem mem_steps : (path, q) ∈ steps paths ↔ path ∈ paths ∧ q ≠ [] ∧ q <+: path.segments := by
  simp only [steps, List.mem_flatMap, List.mem_map, Prod.mk.injEq, mem_prefixesFrom,
    List.nil_append]
  constructor
  · intro h
    obtain ⟨p, hp, _, ⟨front, hne, hfront, rfl⟩, rfl, rfl⟩ := h
    exact ⟨hp, hne, hfront⟩
  · intro h
    obtain ⟨hpath, hne, hq⟩ := h
    exact ⟨path, hpath, q, ⟨q, hne, hq, rfl⟩, rfl, rfl⟩

omit [Blake3] in
/-- A further path takes its steps after the others. -/
theorem steps_append (paths : List SupervisionPath) (path : SupervisionPath) :
    steps (paths ++ [path]) = steps paths ++ (prefixesFrom [] path.segments).map (path, ·) := by
  simp [steps]

/-- Visits of one prefix make the same node. -/
def Agrees (ctx : ProjectionCtx) (seen : List (SupervisionPath × List String)) : Prop :=
  ∀ v ∈ seen, ∀ w ∈ seen, joined v.2 = joined w.2 →
    ∀ id i, prefixNode ctx v.1 v.2 id i = prefixNode ctx w.1 w.2 id i

omit [Blake3] in
/-- Fewer steps agree if more do. -/
theorem Agrees.mono {seen' : List (SupervisionPath × List String)} (h : Agrees ctx seen')
    (hsub : seen ⊆ seen') : Agrees ctx seen :=
  fun v hv w hw => h v (hsub hv) w (hsub hw)

/-- The nodes and edges of a draft are those that the visits make. -/
structure Charts (ctx : ProjectionCtx) (seen : List (SupervisionPath × List String))
    (d : HierarchicalDraft) : Prop where
  built : Built ctx.iri (seen.map Prod.snd) d
  nodes : ∀ n, n ∈ d.nodes ↔ ∃ v ∈ seen, MakesNode ctx v.1 v.2 n
  edges : ∀ e, e ∈ d.edges ↔ ∃ v ∈ seen, MakesEdge ctx v.2 e

/-- An empty draft charts no steps. -/
theorem Charts.empty : Charts ctx [] .empty where
  built := ⟨by simp [HierarchicalDraft.empty], by simp [HierarchicalDraft.empty],
    by simp [HierarchicalDraft.empty]⟩
  nodes := by simp [HierarchicalDraft.empty]
  edges := by simp [HierarchicalDraft.empty]

/-- The id that the edge to the next prefix starts at. -/
def Above (ctx : ProjectionCtx) (front : List String) : Option NodeId → Prop
  | none => front = []
  | some a => front ≠ [] ∧ ∃ i, Mints ctx (joined front) a i

/-- The edge of a prefix comes from the one above it. -/
theorem makesEdge_append_singleton {seg : String} {prev : Option NodeId} {e : Edge}
    (habove : Above ctx front prev) (hmint : Mints ctx (joined (front ++ [seg])) id i) :
    MakesEdge ctx (front ++ [seg]) e ↔
      e ∈ (prev.map fun parent => Edge.between parent "supervises" id).toList := by
  constructor
  · intro h
    obtain ⟨front', seg', a, j, b, j', heq, hne, ha, hb, rfl⟩ := h
    obtain ⟨rfl, -⟩ : front = front' ∧ seg = seg' := by simpa using List.append_inj' heq rfl
    obtain ⟨rfl, -⟩ := hmint.unique hb
    cases prev with
    | none => exact absurd habove hne
    | some parent =>
      obtain ⟨-, j'', hparent⟩ := habove
      obtain ⟨rfl, -⟩ := hparent.unique ha
      simp
  · intro h
    cases prev with
    | none => cases h
    | some parent =>
      obtain rfl : e = .between parent "supervises" id := by simpa using h
      obtain ⟨hne, j, hparent⟩ := habove
      exact ⟨front, seg, parent, j, id, i, rfl, hne, hparent, hmint, rfl⟩

/-- A visit adds its step to the chart. -/
theorem Charts.visit {seg : String} {prev : Option NodeId} (h : Charts ctx seen d)
    (hagrees : Agrees ctx (seen ++ [(path, front ++ [seg])])) (habove : Above ctx front prev)
    (hmint : Mints ctx (joined (front ++ [seg])) id i) :
    Charts ctx (seen ++ [(path, front ++ [seg])])
      (visit ctx path (joined (front ++ [seg])) seg front.length prev id i d) := by
  have hnode : prefixNode ctx path (front ++ [seg]) id i =
      HierarchicalDraft.segmentNode ctx path (joined (front ++ [seg])) seg front.length id i := by
    simp [prefixNode]
  have hself : ∀ n, MakesNode ctx path (front ++ [seg]) n ↔
      n = prefixNode ctx path (front ++ [seg]) id i := by
    intro n
    constructor
    · intro hn
      obtain ⟨id', i', hmint', rfl⟩ := hn
      obtain ⟨rfl, rfl⟩ := hmint.unique hmint'
      rfl
    · intro hn
      exact ⟨id, i, hmint, hn⟩
  have hsplit : ∀ P : SupervisionPath × List String → Prop,
      (∃ v ∈ seen ++ [(path, front ++ [seg])], P v) ↔
        (∃ v ∈ seen, P v) ∨ P (path, front ++ [seg]) := by
    intro P
    simp only [List.mem_append, List.mem_singleton, or_and_right, exists_or, exists_eq_left]
  constructor
  · rw [List.map_append]
    exact h.built.visit (hmint id)
  · intro n
    rw [hsplit, ← h.nodes, hself, hnode, visit_nodes]
    split
    · next hmem =>
      -- an earlier visit has made the node
      constructor
      · exact Or.inl
      · intro hn
        rcases hn with hn | rfl
        · exact hn
        · obtain ⟨q', hq', heq⟩ := (h.built.keys _).mp hmem
          obtain ⟨v, hv, rfl⟩ := List.mem_map.mp hq'
          refine (h.nodes _).mpr ⟨v, hv, id, i, heq ▸ hmint, ?_⟩
          have hsame := hagrees v (List.mem_append_left _ hv) (path, front ++ [seg])
            (List.mem_append_right _ List.mem_cons_self) heq id i
          rw [hsame, hnode]
    · rw [List.mem_append, List.mem_singleton]
  · intro e
    rw [hsplit, ← h.edges, visit_edges, List.mem_append, makesEdge_append_singleton habove hmint]

/-- Inserting segments adds their steps. -/
theorem Charts.insertSegments {rest : List String} {prev : Option NodeId} (hiri : ctx.iri ≠ .uuid)
    (h : Charts ctx seen d)
    (hagrees : Agrees ctx (seen ++ (prefixesFrom front rest).map (path, ·)))
    (habove : Above ctx front prev)
    (hd : HierarchicalDraft.insertSegments random ctx path (rest.zipIdx front.length)
      (joined front) prev d = .ok d') :
    Charts ctx (seen ++ (prefixesFrom front rest).map (path, ·)) d' := by
  induction rest generalizing seen front prev d with
  | nil =>
    cases hd
    rwa [prefixesFrom, List.map_nil, List.append_nil]
  | cons seg rest ih =>
    rw [List.zipIdx_cons] at hd
    obtain ⟨id, i, hmint, hrest⟩ := insertSegments_cons.mp hd
    rw [← joined_append_singleton] at hmint hrest
    have hmints := mints_of_ne_uuid hiri hmint
    have hlength : (front ++ [seg]).length = front.length + 1 := List.length_append
    rw [← hlength] at hrest
    have hsteps : seen ++ (prefixesFrom front (seg :: rest)).map (path, ·) =
        seen ++ [(path, front ++ [seg])] ++ (prefixesFrom (front ++ [seg]) rest).map (path, ·) := by
      simp [prefixesFrom]
    rw [hsteps] at hagrees ⊢
    have hnext := h.visit (hagrees.mono (List.subset_append_left _ _)) habove hmints
    have habove' : Above ctx (front ++ [seg]) (some id) := ⟨by simp, i, hmints⟩
    exact ih hnext hagrees habove' hrest

/-- Inserting a path adds its steps. -/
theorem Charts.insertPath (hiri : ctx.iri ≠ .uuid) (h : Charts ctx (steps paths) d)
    (hagrees : Agrees ctx (steps (paths ++ [path])))
    (hd : HierarchicalDraft.insertPath random ctx d path = .ok d') :
    Charts ctx (steps (paths ++ [path])) d' := by
  rw [steps_append] at hagrees ⊢
  have habove : Above ctx [] none := rfl
  exact h.insertSegments hiri hagrees habove hd

/-- The draft of some paths whose visits agree. -/
theorem Charts.of_paths (hiri : ctx.iri ≠ .uuid) (hagrees : Agrees ctx (steps paths))
    (hd : paths.foldlM (HierarchicalDraft.insertPath random ctx) .empty = .ok d) :
    Charts ctx (steps paths) d := by
  refine foldlM_induction (P := fun done d => Charts ctx (steps done) d) Charts.empty ?_ hd
  intro done path s t hwithin hdone hstep
  refine hdone.insertPath hiri (hagrees.mono ?_) hstep
  intro v hv
  obtain ⟨hmem, hpre⟩ := mem_steps.mp hv
  exact mem_steps.mpr ⟨hwithin.subset hmem, hpre⟩

/-- An id is minted for every prefix of a path. -/
def Mintable (ctx : ProjectionCtx) (path : SupervisionPath) : Prop :=
  ∀ q ∈ prefixesFrom [] path.segments, ∃ id i, Mints ctx (joined q) id i

/-- Segments can be inserted if ids are minted for their prefixes. -/
theorem insertSegments_ok_iff {rest : List String} {prev : Option NodeId} {depth : Nat}
    (hiri : ctx.iri ≠ .uuid) :
    (∃ d', HierarchicalDraft.insertSegments random ctx path (rest.zipIdx depth) (joined front)
        prev d = .ok d') ↔
      ∀ q ∈ prefixesFrom front rest, ∃ id i, Mints ctx (joined q) id i := by
  induction rest generalizing front prev depth d with
  | nil => simp [HierarchicalDraft.insertSegments, prefixesFrom]
  | cons seg rest ih =>
    rw [List.zipIdx_cons, prefixesFrom, List.forall_mem_cons]
    simp only [insertSegments_cons, ← joined_append_singleton]
    constructor
    · intro h
      obtain ⟨d', id, i, hmint, hrest⟩ := h
      exact ⟨⟨id, i, mints_of_ne_uuid hiri hmint⟩, ih.mp ⟨d', hrest⟩⟩
    · intro h
      obtain ⟨⟨id, i, hmint⟩, hrest⟩ := h
      obtain ⟨d', hd'⟩ := ih.mpr hrest
      exact ⟨d', id, i, hmint _, hd'⟩

/-- A path can be inserted if ids are minted for its prefixes. -/
theorem insertPath_ok_iff (hiri : ctx.iri ≠ .uuid) :
    (∃ d', HierarchicalDraft.insertPath random ctx d path = .ok d') ↔ Mintable ctx path := by
  have hroot : joined [] = "" := rfl
  unfold HierarchicalDraft.insertPath
  rw [← hroot]
  exact insertSegments_ok_iff hiri

omit [Blake3] in
/-- A loop whose steps succeed or fail whatever the state is. -/
theorem foldlM_ok_iff {ι σ ε : Type} {step : σ → ι → Except ε σ} {P : ι → Prop}
    (hstep : ∀ s x, (∃ t, step s x = .ok t) ↔ P x) (xs : List ι) (s : σ) :
    (∃ t, xs.foldlM step s = .ok t) ↔ ∀ x ∈ xs, P x := by
  induction xs generalizing s with
  | nil =>
    simp only [List.not_mem_nil, false_implies, implies_true, iff_true]
    exact ⟨s, rfl⟩
  | cons x xs ih =>
    simp only [List.foldlM_cons, bind_eq_ok, List.forall_mem_cons]
    constructor
    · intro h
      obtain ⟨t, u, hu, ht⟩ := h
      exact ⟨(hstep s x).mp ⟨u, hu⟩, (ih u).mp ⟨t, ht⟩⟩
    · intro h
      obtain ⟨hx, hxs⟩ := h
      obtain ⟨u, hu⟩ := (hstep s x).mpr hx
      obtain ⟨t, ht⟩ := (ih u).mpr hxs
      exact ⟨t, u, hu, ht⟩

/-- Paths can be inserted if each of them can. -/
theorem insertPaths_ok_iff (hiri : ctx.iri ≠ .uuid) (paths : List SupervisionPath) :
    (∃ d', paths.foldlM (HierarchicalDraft.insertPath random ctx) d = .ok d') ↔
      ∀ path ∈ paths, Mintable ctx path := by
  refine foldlM_ok_iff (fun d path => ?_) paths d
  exact insertPath_ok_iff hiri

/-- So their order does not matter. -/
theorem insertPaths_perm (hiri : ctx.iri ≠ .uuid) (hperm : paths'.Perm paths)
    (hd : paths.foldlM (HierarchicalDraft.insertPath random ctx) .empty = .ok d) :
    ∃ d', paths'.foldlM (HierarchicalDraft.insertPath random ctx) .empty = .ok d' := by
  have hmintable := (insertPaths_ok_iff hiri paths).mp ⟨d, hd⟩
  refine (insertPaths_ok_iff hiri paths').mpr ?_
  exact fun path hpath => hmintable path (hperm.mem_iff.mp hpath)

/-- Drafts with the same nodes, the same edges and the same ids of prefixes. -/
structure Alike (d d' : HierarchicalDraft) : Prop where
  nodes : ∀ n, n ∈ d.nodes ↔ n ∈ d'.nodes
  edges : ∀ e, e ∈ d.edges ↔ e ∈ d'.edges
  prefixToId : d.prefixToId = d'.prefixToId

/-- Drafts of the same paths in any order are alike. -/
theorem Charts.alike (hperm : paths'.Perm paths) (h : Charts ctx (steps paths) d)
    (h' : Charts ctx (steps paths') d') (hiri : ctx.iri ≠ .uuid) : Alike d d' := by
  have hsteps : ∀ v, v ∈ steps paths ↔ v ∈ steps paths' := by
    intro v
    rw [mem_steps, mem_steps, hperm.mem_iff]
  refine ⟨fun n => ?_, fun e => ?_, ?_⟩
  · simp only [h.nodes, h'.nodes, hsteps]
  · simp only [h.edges, h'.edges, hsteps]
  · have hkeys : ∀ k, k ∈ d.prefixToId ↔ k ∈ d'.prefixToId := by
      intro k
      simp only [h.built.keys, h'.built.keys, List.mem_map, hsteps]
    apply Std.ExtTreeMap.ext_getElem?
    intro k
    cases hk : d.prefixToId[k]? with
    | none =>
      have hnot : k ∉ d'.prefixToId := by
        rw [← hkeys, Std.ExtTreeMap.mem_iff_isSome_getElem?, hk]
        exact Bool.false_ne_true
      rw [Std.ExtTreeMap.getElem?_eq_none hnot]
    | some id =>
      have hmem : k ∈ d'.prefixToId := by
        rw [← hkeys, Std.ExtTreeMap.mem_iff_isSome_getElem?, hk]
        rfl
      obtain ⟨id', hid'⟩ :=
        Option.isSome_iff_exists.mp (Std.ExtTreeMap.mem_iff_isSome_getElem?.mp hmem)
      obtain ⟨r, i, hmint⟩ := h.built.minted k id hk
      obtain ⟨r', i', hmint'⟩ := h'.built.minted k id' hid'
      rw [hid', ((mints_of_ne_uuid hiri hmint).unique (mints_of_ne_uuid hiri hmint')).1]

variable {d₁ : HierarchicalDraft}

/-- Drafts that are alike are so after a visit. -/
theorem Alike.visit {current segment : String} {depth : Nat} {prev : Option NodeId}
    (h : Alike d d') :
    Alike (visit ctx path current segment depth prev id i d)
      (visit ctx path current segment depth prev id i d') := by
  constructor
  · intro n
    rw [visit_nodes, visit_nodes, h.prefixToId]
    split
    · exact h.nodes n
    · rw [List.mem_append, List.mem_append, h.nodes]
  · intro e
    rw [visit_edges, visit_edges, List.mem_append, List.mem_append, h.edges]
  · rw [visit_prefixToId, visit_prefixToId, h.prefixToId]

/-- Drafts that are alike are so after some segments. -/
theorem Alike.insertSegments {segments : List (String × Nat)} {current : String}
    {prev : Option NodeId} (hiri : ctx.iri ≠ .uuid) (h : Alike d d')
    (hd : HierarchicalDraft.insertSegments random ctx path segments current prev d = .ok d₁) :
    ∃ d₁', HierarchicalDraft.insertSegments random ctx path segments current prev d' = .ok d₁' ∧
      Alike d₁ d₁' := by
  induction segments generalizing current prev d d' with
  | nil =>
    cases hd
    exact ⟨d', rfl, h⟩
  | cons s rest ih =>
    obtain ⟨id, i, hmint, hrest⟩ := insertSegments_cons.mp hd
    obtain ⟨d₁', hd₁', halike⟩ := ih h.visit hrest
    refine ⟨d₁', insertSegments_cons.mpr ⟨id, i, ?_, hd₁'⟩, halike⟩
    exact mints_of_ne_uuid hiri hmint _

omit [Blake3] in
/-- Drafts that are alike are so after a further node. -/
theorem Alike.pushNode (h : Alike d d') (n : Node) : Alike (d.pushNode n) (d'.pushNode n) := by
  refine ⟨fun m => ?_, h.edges, h.prefixToId⟩
  simp only [HierarchicalDraft.pushNode, List.mem_append, h.nodes]

omit [Blake3] in
/-- Drafts that are alike are so after a further edge. -/
theorem Alike.pushEdge (h : Alike d d') (e : Edge) : Alike (d.pushEdge e) (d'.pushEdge e) := by
  refine ⟨h.nodes, fun e' => ?_, h.prefixToId⟩
  simp only [HierarchicalDraft.pushEdge, List.mem_append, h.edges]

variable {event : JournalEvent} {state : SerializedState}

/-- Drafts that are alike are so after an emitted event. -/
theorem Alike.emit (h : Alike d d') :
    Alike (emit toRfc3339 ctx event id i d) (emit toRfc3339 ctx event id i d') := by
  have hnode : Alike
      { d.pushNode (eventNode toRfc3339 ctx event id i) with minted := d.minted + 1 }
      { d'.pushNode (eventNode toRfc3339 ctx event id i) with minted := d'.minted + 1 } :=
    ⟨(h.pushNode _).nodes, h.edges, h.prefixToId⟩
  have hget : ∀ k : String, (d.pushNode (eventNode toRfc3339 ctx event id i)).prefixToId[k]? =
      (d'.pushNode (eventNode toRfc3339 ctx event id i)).prefixToId[k]? := by
    intro k
    rw [(h.pushNode _).prefixToId]
  unfold Supervision.emit
  dsimp only
  split
  · exact hnode
  · rw [hget]
    split
    · exact hnode.pushEdge _
    · exact hnode

/-- An event is inserted if its path is and an id is minted for it. -/
theorem insertEvent_of
    (hpath : event.path.toList.foldlM (HierarchicalDraft.insertPath random ctx) d = .ok d₁)
    (hmint : ctx.iri.mintEvent (random d₁.minted) event = .ok (id, i)) :
    HierarchicalDraft.insertEvent random toRfc3339 ctx d event =
      .ok (emit toRfc3339 ctx event id i d₁) := by
  unfold HierarchicalDraft.insertEvent emit
  cases hevent : event.path with
  | none =>
    rw [hevent] at hpath
    cases hpath
    exact bind_eq_ok.mpr ⟨d, rfl, bind_eq_ok.mpr ⟨(id, i), hmint, rfl⟩⟩
  | some path =>
    rw [hevent] at hpath
    simp only [Option.toList_some, List.foldlM_cons, List.foldlM_nil, bind_pure] at hpath
    refine bind_eq_ok.mpr ⟨d₁, hpath, bind_eq_ok.mpr ⟨(id, i), hmint, ?_⟩⟩
    dsimp only
    cases (d₁.pushNode (eventNode toRfc3339 ctx event id i)).prefixToId[path.render]? with
    | none => rfl
    | some actorId => rfl

/-- Drafts that are alike are so after an event with its path. -/
theorem Alike.insertEvent (hiri : ctx.iri ≠ .uuid) (h : Alike d d')
    (hd : HierarchicalDraft.insertEvent random toRfc3339 ctx d event = .ok d₁) :
    ∃ d₁', HierarchicalDraft.insertEvent random toRfc3339 ctx d' event = .ok d₁' ∧
      Alike d₁ d₁' := by
  obtain ⟨d₂, id, i, hpath, hmint, rfl⟩ := insertEvent_ok hd
  have hpath' : ∃ d₂', event.path.toList.foldlM (HierarchicalDraft.insertPath random ctx) d' =
      .ok d₂' ∧ Alike d₂ d₂' := by
    cases hevent : event.path with
    | none =>
      rw [hevent] at hpath
      cases hpath
      exact ⟨d', rfl, h⟩
    | some path =>
      rw [hevent] at hpath
      simp only [Option.toList_some, List.foldlM_cons, List.foldlM_nil, bind_pure] at hpath ⊢
      exact h.insertSegments hiri hpath
  obtain ⟨d₂', hd₂', halike⟩ := hpath'
  refine ⟨_, insertEvent_of hd₂' ?_, halike.emit⟩
  rw [IriMintingStrategy.mintEvent_of_ne_uuid hiri _ (random d₂.minted), hmint]

/-- Drafts that are alike are so after some events. -/
theorem Alike.insertEvents {events : List JournalEvent} (hiri : ctx.iri ≠ .uuid) (h : Alike d d')
    (hd : events.foldlM (HierarchicalDraft.insertEvent random toRfc3339 ctx) d = .ok d₁) :
    ∃ d₁', events.foldlM (HierarchicalDraft.insertEvent random toRfc3339 ctx) d' = .ok d₁' ∧
      Alike d₁ d₁' := by
  induction events generalizing d d' with
  | nil =>
    cases hd
    exact ⟨d', rfl, h⟩
  | cons event events ih =>
    rw [List.foldlM_cons] at hd
    obtain ⟨d₂, hd₂, hrest⟩ := bind_eq_ok.mp hd
    obtain ⟨d₂', hd₂', halike⟩ := h.insertEvent hiri hd₂
    obtain ⟨d₁', hd₁', halike'⟩ := ih halike hrest
    refine ⟨d₁', ?_, halike'⟩
    rw [List.foldlM_cons]
    exact bind_eq_ok.mpr ⟨d₂', hd₂', hd₁'⟩

/-- Drafts that are alike are so after a state. -/
theorem Alike.insertState (h : Alike d d') :
    Alike (HierarchicalDraft.insertState ctx d state)
      (HierarchicalDraft.insertState ctx d' state) := by
  have hnode := h.pushNode (stateNode ctx state)
  unfold HierarchicalDraft.insertState
  simp only [hnode.prefixToId]
  split
  · exact hnode.pushEdge _
  · exact hnode

/-- Drafts that are alike are so after some states. -/
theorem Alike.insertStates (states : List SerializedState) (h : Alike d d') :
    Alike (states.foldl (HierarchicalDraft.insertState ctx) d)
      (states.foldl (HierarchicalDraft.insertState ctx) d') := by
  induction states generalizing d d' with
  | nil => exact h
  | cons state states ih => exact ih h.insertState

/-- No visit, event or state makes a property of drafts false. -/
structure Stable (ctx : ProjectionCtx) (P : HierarchicalDraft → Prop) : Prop where
  visit : ∀ path current segment depth prev id i d, P d →
    P (visit ctx path current segment depth prev id i d)
  attach : ∀ n d d', n.properties["path"]? = none → Attaches n d d' → P d → P d'

variable {P : HierarchicalDraft → Prop} {events : List JournalEvent}
  {states : List SerializedState}

/-- What every visit keeps is kept by segments. -/
theorem Stable.insertSegments {segments : List (String × Nat)} {current : String}
    {prev : Option NodeId} (h : Stable ctx P) (hP : P d)
    (hd : HierarchicalDraft.insertSegments random ctx path segments current prev d = .ok d') :
    P d' := by
  induction segments generalizing current prev d with
  | nil =>
    cases hd
    exact hP
  | cons s rest ih =>
    obtain ⟨id, i, -, hrest⟩ := insertSegments_cons.mp hd
    exact ih (h.visit _ _ _ _ _ _ _ _ hP) hrest

/-- What every visit keeps is kept by paths. -/
theorem Stable.insertPaths (h : Stable ctx P) (hP : P d)
    (hd : paths.foldlM (HierarchicalDraft.insertPath random ctx) d = .ok d') : P d' :=
  foldlM_induction (P := fun _ d => P d) hP (fun _ _ _ _ _ hs => h.insertSegments hs) hd

omit [Blake3] in
/-- The node of an event has no path. -/
theorem eventNode_path : (eventNode toRfc3339 ctx event id i).properties["path"]? = none := by
  unfold eventNode
  dsimp only
  split <;> simp [Node.withProperty]

/-- The node of a state has no path. -/
theorem stateNode_path : (stateNode ctx state).properties["path"]? = none := by
  unfold stateNode
  dsimp only
  apply Std.ExtTreeMap.getElem?_ofList_of_contains_eq_false
  simp

/-- What every visit and every node without a path keeps is kept by events. -/
theorem Stable.insertEvents (h : Stable ctx P) (hP : P d)
    (hd : events.foldlM (HierarchicalDraft.insertEvent random toRfc3339 ctx) d = .ok d') :
    P d' := by
  refine foldlM_induction (P := fun _ d => P d) hP (fun _ event s t _ hs hstep => ?_) hd
  obtain ⟨d₁, id, i, hpath, -, rfl⟩ := insertEvent_ok hstep
  exact h.attach _ _ _ eventNode_path attaches_emit (h.insertPaths hs hpath)

/-- It is kept by states too. -/
theorem Stable.insertStates (h : Stable ctx P) (hP : P d) :
    P (states.foldl (HierarchicalDraft.insertState ctx) d) := by
  induction states generalizing d with
  | nil => exact hP
  | cons state states ih => exact ih (h.attach _ _ _ stateNode_path attaches_insertState hP)

/-- A node stays. -/
theorem stable_mem (ctx : ProjectionCtx) (n : Node) : Stable ctx (n ∈ ·.nodes) where
  visit path current segment depth prev id i d hn := by
    rw [visit_nodes]
    split
    · exact hn
    · exact List.mem_append_left _ hn
  attach m d d' _ hattaches hn := by
    rw [hattaches.nodes]
    exact List.mem_append_left _ hn

/-- The prefix with a text has a node that is not bare, and no bare one. -/
def Dressed (text : String) (d : HierarchicalDraft) : Prop :=
  text ∈ d.prefixToId ∧ ∀ n ∈ d.nodes, ¬IsBare text n

/-- A prefix that has a node gets no other. -/
theorem stable_dressed (ctx : ProjectionCtx) (text : String) : Stable ctx (Dressed text) where
  visit path current segment depth prev id i d hdressed := by
    refine ⟨mem_visit.mpr (Or.inl hdressed.1), ?_⟩
    rw [visit_nodes]
    split
    · exact hdressed.2
    · next hnew =>
      intro n hn
      rcases List.mem_append.mp hn with hold | hn
      · exact hdressed.2 n hold
      · obtain rfl := List.mem_singleton.mp hn
        intro hbare
        exact hnew (current_of_isBare hbare ▸ hdressed.1)
  attach m d d' hm hattaches hdressed := by
    unfold Dressed
    rw [hattaches.prefixToId, hattaches.nodes]
    refine ⟨hdressed.1, ?_⟩
    intro n hn
    rcases List.mem_append.mp hn with hold | hn
    · exact hdressed.2 n hold
    · obtain rfl := List.mem_singleton.mp hn
      intro hbare
      have hpath := hbare.1
      rw [hm] at hpath
      cases hpath

/-- A path with attributes is not the beginning of another. -/
def AttributesAtEnds (paths : List SupervisionPath) : Prop :=
  ∀ p ∈ paths, ∀ q ∈ paths, p.segments ≠ [] → p.segments <+: q.segments →
    p.segments ≠ q.segments → p.attributes = ∅

omit [Blake3] in
/-- Steps agree if prefixes of other paths have no attributes. -/
theorem agrees_of_attributesAtEnds (hplain : ∀ path ∈ paths, Plain path.segments)
    (hdistinct : (paths.map (·.segments)).Nodup) (h : AttributesAtEnds paths) :
    Agrees ctx (steps paths) := by
  intro v hv w hw heq id i
  obtain ⟨p, q⟩ := v
  obtain ⟨p', q'⟩ := w
  obtain ⟨hp, hne, hq⟩ := mem_steps.mp hv
  obtain ⟨hp', -, hq'⟩ := mem_steps.mp hw
  obtain rfl : q = q' :=
    joined_injective ((hplain p hp).of_isPrefix hq) ((hplain p' hp').of_isPrefix hq') heq
  refine prefixNode_congr hne hq hq' ?_
  unfold leafAttributes
  by_cases hleaf : q = p.segments
  · subst hleaf
    rw [if_pos rfl]
    by_cases hleaf' : p.segments = p'.segments
    · rw [if_pos hleaf', List.inj_on_of_nodup_map hdistinct hp hp' hleaf']
    · rw [if_neg hleaf', h p hp p' hp' hne hq' hleaf']
  · rw [if_neg hleaf]
    by_cases hleaf' : q = p'.segments
    · subst hleaf'
      rw [if_pos rfl, h p' hp' p hp hne hq hleaf]
    · rw [if_neg hleaf']

/-- One path agrees with itself. -/
theorem Charts.of_path (hiri : ctx.iri ≠ .uuid) (hplain : Plain path.segments)
    (hd : HierarchicalDraft.insertPath random ctx .empty path = .ok d) :
    Charts ctx (steps [path]) d := by
  have hpaths : [path].foldlM (HierarchicalDraft.insertPath random ctx) .empty = .ok d := by
    simpa using hd
  refine Charts.of_paths hiri (agrees_of_attributesAtEnds ?_ (List.nodup_singleton _) ?_) hpaths
  · intro p hp
    rwa [List.mem_singleton.mp hp]
  · intro p hp q hq _ _ hne
    rw [List.mem_singleton.mp hp, List.mem_singleton.mp hq] at hne
    exact absurd rfl hne

/-- A property that holds after the first path and that nothing makes false. -/
theorem Stable.of_first {batch : ActorBatch} (h : Stable ctx P)
    (hfirst : ∀ d, HierarchicalDraft.insertPath random ctx .empty path = .ok d → P d)
    (hd : HierarchicalDraft.ofBatch random toRfc3339 ctx { batch with paths := path :: paths } =
      .ok d) : P d := by
  obtain ⟨d₁, d₂, hpaths, hevents, rfl⟩ := ofBatch_ok_iff.mp hd
  rw [List.foldlM_cons] at hpaths
  obtain ⟨d₀, hd₀, hrest⟩ := bind_eq_ok.mp hpaths
  exact h.insertStates (h.insertEvents (h.insertPaths (hfirst d₀ hd₀) hrest) hevents)

/-- Some node has the id of a path and its attributes. -/
def HasLeaf (ctx : ProjectionCtx) (nodes : List Node) (path : SupervisionPath) : Prop :=
  ∃ n ∈ nodes, (∃ i, ∀ r, ctx.iri.mintActor r path = .ok (n.id, i)) ∧
    ∀ (k : String) (v : JsonValue), path.attributes[k]? = some v →
      n.properties[k]? = some (.json v)

/-- Every order of the paths of a batch yields the nodes and edges of a delta, and with them the
leaf of each path with its attributes. -/
def OrderFree (strategy : ProjectionStrategy) (ctx : ProjectionCtx) (batch : ActorBatch)
    (delta : OntologyDelta) : Prop :=
  ∀ paths' : List SupervisionPath, paths'.Perm batch.paths →
    ∃ delta', strategy.project { batch with paths := paths' } ctx = .ok delta' ∧
      (∀ n, n ∈ delta'.nodes ↔ n ∈ delta.nodes) ∧ (∀ e, e ∈ delta'.edges ↔ e ∈ delta.edges) ∧
      ∀ path ∈ batch.paths, path.segments ≠ [] → HasLeaf ctx delta'.nodes path

/-- Ids are minted for the prefixes of paths that were inserted. -/
theorem Mintable.of_ok (hiri : ctx.iri ≠ .uuid)
    (hd : paths.foldlM (HierarchicalDraft.insertPath random ctx) .empty = .ok d)
    (hpath : path ∈ paths) (hne : q ≠ []) (hq : q <+: path.segments) :
    ∃ id i, Mints ctx (joined q) id i :=
  (insertPaths_ok_iff hiri paths).mp ⟨d, hd⟩ path hpath q (mem_prefixesFrom.mpr ⟨q, hne, hq, rfl⟩)

/-- Where the attributes are at ends, every order yields an alike draft with the same leaves. -/
theorem orderFree_of_attributesAtEnds {batch : ActorBatch} {delta : OntologyDelta}
    (hiri : ctx.iri ≠ .uuid) (hplain : ∀ path ∈ batch.paths, Plain path.segments)
    (hdistinct : (batch.paths.map (·.segments)).Nodup)
    (hok : (hierarchicalProjection random toRfc3339 label).project batch ctx = .ok delta)
    (h : AttributesAtEnds batch.paths) :
    OrderFree (hierarchicalProjection random toRfc3339 label) ctx batch delta := by
  obtain ⟨d, hd, rfl⟩ := project_ok_iff.mp hok
  obtain ⟨d₁, d₂, hpaths, hevents, rfl⟩ := ofBatch_ok_iff.mp hd
  have hagrees : Agrees ctx (steps batch.paths) := agrees_of_attributesAtEnds hplain hdistinct h
  have hcharts := Charts.of_paths hiri hagrees hpaths
  intro paths' hperm
  have hagrees' : Agrees ctx (steps paths') := by
    refine hagrees.mono fun v hv => ?_
    obtain ⟨hp, hrest⟩ := mem_steps.mp hv
    exact mem_steps.mpr ⟨hperm.mem_iff.mp hp, hrest⟩
  obtain ⟨d₁', hpaths'⟩ := insertPaths_perm hiri hperm hpaths
  have halike := hcharts.alike hperm (Charts.of_paths hiri hagrees' hpaths') hiri
  obtain ⟨d₂', hevents', halike₂⟩ := halike.insertEvents hiri hevents
  have hstates : Alike (batch.states.foldl (HierarchicalDraft.insertState ctx) d₂)
      (batch.states.foldl (HierarchicalDraft.insertState ctx) d₂') :=
    halike₂.insertStates batch.states
  refine ⟨_, project_ok_iff.mpr ⟨_, ofBatch_ok_iff.mpr ⟨d₁', d₂', hpaths', hevents', rfl⟩, rfl⟩,
    fun n => (hstates.nodes n).symm, fun e => (hstates.edges e).symm, ?_⟩
  intro path hpath hne
  obtain ⟨id, i, hmint⟩ := Mintable.of_ok hiri hpaths hpath hne List.prefix_rfl
  have hnode : prefixNode ctx path path.segments id i ∈ d₁.nodes :=
    (hcharts.nodes _).mpr ⟨(path, path.segments), mem_steps.mpr ⟨hpath, hne, List.prefix_rfl⟩,
      id, i, hmint, rfl⟩
  have hstays := stable_mem ctx (prefixNode ctx path path.segments id i)
  refine ⟨_, (hstates.nodes _).mp (hstays.insertStates (hstays.insertEvents hnode hevents)),
    ⟨i, ?_⟩, ?_⟩
  · intro r
    rw [prefixNode_id, ← mintActor_parse_joined hne]
    exact hmint r
  · intro k v hk
    rw [get_prefixNode hne List.prefix_rfl, leafAttributes, if_pos rfl, hk]
    rfl

/-- The node of the beginning of a path is bare if the longer path comes first. -/
theorem bare_of_longer_first {p r : SupervisionPath} {batch : ActorBatch} (hiri : ctx.iri ≠ .uuid)
    (hplain : Plain r.segments) (hne : p.segments ≠ []) (hp : p.segments <+: r.segments)
    (hlonger : p.segments ≠ r.segments) (hmint : Mints ctx (joined p.segments) id i)
    (hd : HierarchicalDraft.ofBatch random toRfc3339 ctx { batch with paths := r :: paths } =
      .ok d) : bareNode ctx p.segments id i ∈ d.nodes := by
  refine (stable_mem ctx _).of_first (fun d₀ hd₀ => ?_) hd
  refine ((Charts.of_path hiri hplain hd₀).nodes _).mpr
    ⟨(r, p.segments), mem_steps.mpr ⟨List.mem_singleton_self r, hne, hp⟩, id, i, hmint, ?_⟩
  exact (prefixNode_of_empty hne hp (if_neg hlonger)).symm

/-- The node of a path with attributes is not bare if the path comes first. -/
theorem dressed_of_first {p : SupervisionPath} {batch : ActorBatch} (hiri : ctx.iri ≠ .uuid)
    (hplain : Plain p.segments) (hne : p.segments ≠ []) (hattributes : p.attributes ≠ ∅)
    (hd : HierarchicalDraft.ofBatch random toRfc3339 ctx { batch with paths := p :: paths } =
      .ok d) : Dressed (joined p.segments) d := by
  refine (stable_dressed ctx _).of_first (fun d₀ hd₀ => ?_) hd
  have hcharts := Charts.of_path hiri hplain hd₀
  constructor
  · refine (hcharts.built.keys _).mpr ⟨p.segments, List.mem_map.mpr ⟨(p, p.segments), ?_, rfl⟩, rfl⟩
    exact mem_steps.mpr ⟨List.mem_singleton_self p, hne, List.prefix_rfl⟩
  · intro n hn hbare
    obtain ⟨v, hv, id, i, -, rfl⟩ := (hcharts.nodes n).mp hn
    obtain ⟨p', q⟩ := v
    obtain ⟨hp', hne', hq⟩ := mem_steps.mp hv
    obtain rfl := List.mem_singleton.mp hp'
    obtain ⟨htext, hempty⟩ := (isBare_prefixNode_iff hne' hq).mp hbare
    obtain rfl := joined_injective hplain (hplain.of_isPrefix hq) htext
    rw [leafAttributes, if_pos rfl] at hempty
    exact hattributes hempty

/-- The paths of a batch can be inserted in any order, and every leaf has the attributes of its
path, exactly if no path with attributes is the beginning of another path of the batch. -/
theorem order_free_iff (random : Nat → NodeId) (toRfc3339 : DateTime → String) (label : String)
    (ctx : ProjectionCtx) (batch : ActorBatch) (delta : OntologyDelta) (hiri : ctx.iri ≠ .uuid)
    (hplain : ∀ path ∈ batch.paths, Plain path.segments)
    (hdistinct : (batch.paths.map (·.segments)).Nodup)
    (hok : (hierarchicalProjection random toRfc3339 label).project batch ctx = .ok delta) :
    OrderFree (hierarchicalProjection random toRfc3339 label) ctx batch delta ↔
      AttributesAtEnds batch.paths := by
  refine ⟨fun hfree => ?_, orderFree_of_attributesAtEnds hiri hplain hdistinct hok⟩
  intro p hp r hr hne hprefix hlonger
  by_contra hattributes
  have hfirst : ∀ path ∈ batch.paths, ∃ paths d,
      HierarchicalDraft.ofBatch random toRfc3339 ctx { batch with paths := path :: paths } = .ok d ∧
        ∀ n, n ∈ d.nodes ↔ n ∈ delta.nodes := by
    intro path hpath
    obtain ⟨s, t, hst⟩ := List.append_of_mem hpath
    obtain ⟨delta', hdelta', hnodes, -⟩ :=
      hfree (path :: (s ++ t)) (by rw [hst]; exact List.perm_middle.symm)
    obtain ⟨d, hd, rfl⟩ := project_ok_iff.mp hdelta'
    exact ⟨s ++ t, d, hd, hnodes⟩
  obtain ⟨d, hd, -⟩ := project_ok_iff.mp hok
  obtain ⟨d₁, -, hpaths, -⟩ := ofBatch_ok_iff.mp hd
  obtain ⟨id, i, hmint⟩ := Mintable.of_ok hiri hpaths hp hne List.prefix_rfl
  obtain ⟨_, d_r, hd_r, hnodes_r⟩ := hfirst r hr
  obtain ⟨_, d_p, hd_p, hnodes_p⟩ := hfirst p hp
  have hbare := bare_of_longer_first hiri (hplain r hr) hne hprefix hlonger hmint hd_r
  have hdressed := dressed_of_first hiri (hplain p hp) hne hattributes hd_p
  exact hdressed.2 _ ((hnodes_p _).mpr ((hnodes_r _).mp hbare)) isBare_bareNode

end

private def batchOf (paths : List SupervisionPath) : ActorBatch := ⟨paths, [], [], .beginning, none⟩

/-- A path with a role, or without attributes. -/
private def pathTo (segments : List String) (role : Option String) : SupervisionPath :=
  ⟨segments, ⟨segments.getLastD ""⟩,
    match role with
    | some role => (∅ : BTreeMap String JsonValue).insert "role" ⟨.str role, Eq.refl true⟩
    | none => ∅⟩

/-- A leaf keeps its role in both orders of the paths. -/
theorem order_free_role_at_end :
    @OrderFree Blake3.beginning sampleStrategy ProjectionCtx.sample
      (batchOf [pathTo ["a"] none, pathTo ["a", "b"] (some "worker")])
      (sampleDelta (batchOf [pathTo ["a"] none, pathTo ["a", "b"] (some "worker")])) := by
  refine (@order_free_iff Blake3.beginning _ _ "" ProjectionCtx.sample _ _ (by decide) ?_ ?_
    (project_sampleDelta (by decide +kernel))).mpr ?_
  · simp [batchOf, pathTo, Plain]
  · simp [batchOf, pathTo]
  · intro p hp q hq hne hprefix hlonger
    simp only [batchOf, List.mem_cons, List.not_mem_nil, or_false] at hp hq
    rcases hp with rfl | rfl
    · rfl
    · rcases hq with rfl | rfl
      · simp [pathTo] at hprefix
      · exact absurd rfl hlonger

/-- A supervisor loses its role if the path of a child is inserted first. -/
theorem supervisor_loses_role :
    (∀ path ∈ (batchOf [pathTo ["a"] (some "root"), pathTo ["a", "b"] none]).paths,
      path.segments ≠ [] ∧ Plain path.segments) ∧
    ((batchOf [pathTo ["a"] (some "root"), pathTo ["a", "b"] none]).paths.map (·.segments)).Nodup ∧
    sampleStrategy.project (batchOf [pathTo ["a"] (some "root"), pathTo ["a", "b"] none])
      ProjectionCtx.sample =
        .ok (sampleDelta (batchOf [pathTo ["a"] (some "root"), pathTo ["a", "b"] none])) ∧
    ¬@OrderFree Blake3.beginning sampleStrategy ProjectionCtx.sample
      (batchOf [pathTo ["a"] (some "root"), pathTo ["a", "b"] none])
      (sampleDelta (batchOf [pathTo ["a"] (some "root"), pathTo ["a", "b"] none])) := by
  refine ⟨by simp [batchOf, pathTo, Plain], by simp [batchOf, pathTo],
    project_sampleDelta (by decide +kernel), ?_⟩
  intro hfree
  obtain ⟨delta', hdelta', -, -, hleaves⟩ :=
    hfree [pathTo ["a", "b"] none, pathTo ["a"] (some "root")] (List.Perm.swap _ _ _)
  have hswapped : sampleStrategy.project
      (batchOf [pathTo ["a", "b"] none, pathTo ["a"] (some "root")]) ProjectionCtx.sample =
        .ok (sampleDelta (batchOf [pathTo ["a", "b"] none, pathTo ["a"] (some "root")])) :=
    project_sampleDelta (by decide +kernel)
  obtain rfl := Except.ok.inj (hswapped.symm.trans hdelta')
  obtain ⟨n, hn, -, hrole⟩ := hleaves (pathTo ["a"] (some "root")) List.mem_cons_self
    (List.cons_ne_nil _ _)
  have hnone :
    (sampleDelta (batchOf [pathTo ["a", "b"] none, pathTo ["a"] (some "root")])).nodes.all
      (fun n => !n.properties.contains "role") = true := by
    decide +kernel
  have hget := hrole "role" ⟨.str "root", rfl⟩ (by simp [pathTo])
  have hcontains := List.all_eq_true.mp hnone n hn
  rw [Std.ExtTreeMap.contains_eq_isSome_getElem?, hget] at hcontains
  cases hcontains

end Supervision

end AtomrOntology
