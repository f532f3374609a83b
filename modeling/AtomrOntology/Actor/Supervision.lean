import AtomrOntology.Actor.Minting

/-!
# Is the supervision tree closed?

Each visit of a path prefix mints an id, but only the first visit of a prefix makes a node and
a key of the prefix map. An edge of a later visit ends in the nodes of its prefixes if the same
id is minted again. A random id is not: the edge then starts at an id without a node.
-/

namespace AtomrOntology

namespace Supervision

/-- The text of a path prefix. -/
def joined (segments : List String) : String :=
  segments.foldl (fun out seg => out ++ "/" ++ seg) ""

/-- The prefixes of a path that are longer than one of them. -/
def prefixesFrom (pre : List String) : List String → List (List String)
  | [] => []
  | seg :: rest => (pre ++ [seg]) :: prefixesFrom (pre ++ [seg]) rest

/-- The prefixes of some paths, as they are visited. -/
def visits (paths : List SupervisionPath) : List (List String) :=
  paths.flatMap fun path => prefixesFrom [] path.segments

/-- The paths of a batch in the order in which they are inserted. -/
def visited (batch : ActorBatch) : List SupervisionPath :=
  batch.paths ++ batch.events.filterMap (·.path)

@[simp] theorem joined_append_singleton (pre : List String) (seg : String) :
    joined (pre ++ [seg]) = joined pre ++ "/" ++ seg := by
  simp [joined, List.foldl_append]

/-- A joined path has a slash before each segment. -/
theorem toList_joined (segments : List String) :
    (joined segments).toList = segments.flatMap fun seg => '/' :: seg.toList := by
  rw [joined, SupervisionPath.toList_render_foldl, String.toList_empty, List.nil_append]

/-- A path whose segments have no slash. -/
def Plain (segments : List String) : Prop := ∀ seg ∈ segments, '/' ∉ seg.toList

/-- Plain segments are found again between the slashes. -/
theorem splitOn_joined {segments : List String} (h : Plain segments) :
    (joined segments).toList.splitOn '/' = [] :: segments.map String.toList := by
  have hparts := List.splitOn_append_flatMap_cons '/' [] (segments.map String.toList)
  simp only [List.nil_append, List.flatMap_map, List.splitOn_nil] at hparts
  rw [toList_joined, hparts, List.singleton_append, List.cons.injEq]
  refine ⟨rfl, ?_⟩
  induction segments with
  | nil => rfl
  | cons seg segments ih =>
    rw [List.flatMap_cons, List.splitOn_eq_singleton (h seg List.mem_cons_self),
      ih (fun s hs => h s (List.mem_cons_of_mem _ hs))]
    · rfl
    · have hrest := List.splitOn_append_flatMap_cons '/' [] (segments.map String.toList)
      simpa only [List.nil_append, List.flatMap_map, List.splitOn_nil] using hrest

/-- Paths of plain segments are told apart by their texts. -/
theorem joined_injective {p q : List String} (hp : Plain p) (hq : Plain q)
    (h : joined p = joined q) : p = q := by
  have hsplit := congrArg (fun s : String => s.toList.splitOn '/') h
  simp only [splitOn_joined hp, splitOn_joined hq, List.cons.injEq, true_and] at hsplit
  exact List.map_injective_iff.mpr (fun _ _ => String.toList_inj.mp) hsplit

/-- The prefixes of a path, below another one. -/
theorem mem_prefixesFrom {pre segments q : List String} :
    q ∈ prefixesFrom pre segments ↔ ∃ front, front ≠ [] ∧ front <+: segments ∧
    q = pre ++ front := by
  induction segments generalizing pre with
  | nil => simp [prefixesFrom]
  | cons seg rest ih =>
    rw [prefixesFrom, List.mem_cons, ih]
    constructor
    · intro h
      obtain rfl | ⟨front, -, hfront, rfl⟩ := h
      · exact ⟨[seg], List.cons_ne_nil _ _, by simp, rfl⟩
      · exact ⟨seg :: front, List.cons_ne_nil _ _, by simpa using hfront, by simp⟩
    · intro h
      obtain ⟨front, hne, hfront, rfl⟩ := h
      cases front with
      | nil => exact absurd rfl hne
      | cons seg' front =>
        obtain ⟨rfl, hrest⟩ := List.cons_prefix_cons.mp hfront
        cases front with
        | nil => exact Or.inl rfl
        | cons next front => exact Or.inr ⟨next :: front, List.cons_ne_nil _ _, hrest, by simp⟩

/-- Visited are the prefixes of the paths. -/
theorem mem_visits {paths : List SupervisionPath} {q : List String} :
    q ∈ visits paths ↔ ∃ path ∈ paths, q ≠ [] ∧ q <+: path.segments := by
  simp only [visits, List.mem_flatMap, mem_prefixesFrom, List.nil_append]
  constructor
  · intro h
    obtain ⟨path, hpath, front, hne, hfront, rfl⟩ := h
    exact ⟨path, hpath, hne, hfront⟩
  · intro h
    obtain ⟨path, hpath, hne, hfront⟩ := h
    exact ⟨path, hpath, q, hne, hfront, rfl⟩

section

variable [Blake3] {random : Nat → NodeId} {toRfc3339 : DateTime → String} {ctx : ProjectionCtx}
  {path : SupervisionPath} {segment : String} {depth : Nat} {prev : Option NodeId}
  {r id : NodeId} {i : Option Iri} {d d' : HierarchicalDraft} {seen : List (List String)}
  {pre rest q : List String} {hist : List SupervisionPath}

/-- The draft after a visit of a prefix with the id that was minted for it. -/
def visit (ctx : ProjectionCtx) (path : SupervisionPath) (current segment : String) (depth : Nat)
    (prev : Option NodeId) (id : NodeId) (iri : Option Iri) (d : HierarchicalDraft) :
    HierarchicalDraft :=
  let d := { d with minted := d.minted + 1 }
  let d := if d.prefixToId.contains current then d
    else { d.pushNode (HierarchicalDraft.segmentNode ctx path current segment depth id iri) with
      prefixToId := d.prefixToId.insert current id }
  match prev with
  | some parent => d.pushEdge (.between parent "supervises" id)
  | none => d

/-- A path is inserted segment by segment: an id is minted, the segment visited, and the rest
follows. -/
theorem insertSegments_cons {rest : List (String × Nat)} {current : String} :
    HierarchicalDraft.insertSegments random ctx path ((segment, depth) :: rest) current prev d =
      .ok d' ↔ ∃ id i,
        ctx.iri.mintActor (random d.minted) (.parse (current ++ "/" ++ segment)) = .ok (id, i) ∧
        HierarchicalDraft.insertSegments random ctx path rest (current ++ "/" ++ segment) (some id)
          (visit ctx path (current ++ "/" ++ segment) segment depth prev id i d) = .ok d' := by
  rw [HierarchicalDraft.insertSegments, bind_eq_ok]
  constructor
  · intro h
    obtain ⟨⟨id, i⟩, hmint, hrest⟩ := h
    exact ⟨id, i, hmint, hrest⟩
  · intro h
    obtain ⟨id, i, hmint, hrest⟩ := h
    exact ⟨(id, i), hmint, hrest⟩

variable {current : String}

/-- A visit draws one id. -/
theorem visit_minted :
    (visit ctx path current segment depth prev id i d).minted = d.minted + 1 := by
  unfold visit
  cases prev <;> dsimp only [HierarchicalDraft.pushEdge] <;> split <;> rfl

/-- A visit records the id of a prefix that is new. -/
theorem visit_prefixToId : (visit ctx path current segment depth prev id i d).prefixToId =
    if current ∈ d.prefixToId then d.prefixToId else d.prefixToId.insert current id := by
  unfold visit
  simp only [Std.ExtTreeMap.contains_iff_mem]
  cases prev <;> dsimp only [HierarchicalDraft.pushEdge] <;> split <;> rfl

/-- A visit adds a node for a prefix that is new. -/
theorem visit_nodes : (visit ctx path current segment depth prev id i d).nodes =
    if current ∈ d.prefixToId then d.nodes
    else d.nodes ++ [HierarchicalDraft.segmentNode ctx path current segment depth id i] := by
  unfold visit
  simp only [Std.ExtTreeMap.contains_iff_mem]
  cases prev <;> dsimp only [HierarchicalDraft.pushEdge] <;> split <;> rfl

/-- A visit adds an edge from the parent, if there is one. -/
theorem visit_edges : (visit ctx path current segment depth prev id i d).edges =
    d.edges ++ (prev.map fun parent => Edge.between parent "supervises" id).toList := by
  unfold visit
  cases prev with
  | none =>
    dsimp only
    split <;> simp [HierarchicalDraft.pushNode]
  | some parent =>
    dsimp only [HierarchicalDraft.pushEdge]
    split <;> rfl

/-- After a visit the prefix has an id. -/
theorem mem_visit {k : String} :
    k ∈ (visit ctx path current segment depth prev id i d).prefixToId ↔
      k ∈ d.prefixToId ∨ k = current := by
  rw [visit_prefixToId]
  split
  · next hmem =>
    constructor
    · exact Or.inl
    · intro h
      exact h.elim (fun h => h) (fun h => h ▸ hmem)
  · rw [Std.ExtTreeMap.mem_insert, Std.LawfulEqOrd.compare_eq_iff_eq, or_comm, eq_comm]

/-- A visit does not change the ids of other prefixes. -/
theorem get_visit_of_mem {k : String} (h : k ∈ d.prefixToId) :
    (visit ctx path current segment depth prev id i d).prefixToId[k]? = d.prefixToId[k]? := by
  rw [visit_prefixToId]
  split
  · rfl
  · next hmem =>
    rw [BTreeMap.get_insert, if_neg]
    intro heq
    exact hmem (heq ▸ h)

/-- The prefix of a visit keeps an id that it has. -/
theorem get_visit_self (h : ∀ id', d.prefixToId[current]? = some id' → id' = id) :
    (visit ctx path current segment depth prev id i d).prefixToId[current]? = some id := by
  rw [visit_prefixToId]
  split
  · next hmem =>
    obtain ⟨id', hid'⟩ :=
      Option.isSome_iff_exists.mp (Std.ExtTreeMap.mem_iff_isSome_getElem?.mp hmem)
    rw [hid', h id' hid']
  · rw [BTreeMap.get_insert, if_pos rfl]

omit [Blake3] in
/-- The node of a segment has the id that was minted. -/
theorem segmentNode_id :
    (HierarchicalDraft.segmentNode ctx path current segment depth id i).id = id := by
  have hattributes : ∀ (kvs : List (String × JsonValue)) (n : Node),
      (kvs.foldl (fun node kv => node.withProperty kv.1 (.json kv.2)) n).id = n.id := by
    intro kvs
    induction kvs with
    | nil => exact fun _ => rfl
    | cons kv kvs ih => exact fun n => ih (n.withProperty kv.1 (.json kv.2))
  unfold HierarchicalDraft.segmentNode
  dsimp only
  split
  · rw [hattributes]
    rfl
  · rfl

/-- The keys of the prefix map are the visited prefixes; each has a node with the id that some
visit of it minted. -/
structure Built (iri : IriMintingStrategy) (seen : List (List String)) (d : HierarchicalDraft) :
    Prop where
  keys : ∀ k : String, k ∈ d.prefixToId ↔ ∃ q ∈ seen, joined q = k
  nodes : ∀ (k : String) (id : NodeId), d.prefixToId[k]? = some id → ∃ n ∈ d.nodes, n.id = id
  minted : ∀ (k : String) (id : NodeId), d.prefixToId[k]? = some id →
    ∃ r i, iri.mintActor r (.parse k) = .ok (id, i)

/-- A visit keeps a draft built. -/
theorem Built.visit (h : Built ctx.iri seen d)
    (hmint : ctx.iri.mintActor r (.parse (joined q)) = .ok (id, i)) :
    Built ctx.iri (seen ++ [q]) (visit ctx path (joined q) segment depth prev id i d) := by
  have hget : ∀ (k : String) (id' : NodeId),
      (Supervision.visit ctx path (joined q) segment depth prev id i d).prefixToId[k]? =
      some id' → d.prefixToId[k]? = some id' ∨ k = joined q ∧ id' = id ∧
        joined q ∉ d.prefixToId := by
    intro k id' hk
    rw [visit_prefixToId] at hk
    split at hk
    · exact Or.inl hk
    · next hmem =>
      rw [BTreeMap.get_insert] at hk
      split at hk
      · next heq => exact Or.inr ⟨heq.symm, (Option.some.inj hk).symm, hmem⟩
      · exact Or.inl hk
  constructor
  · intro k
    rw [mem_visit, h.keys]
    simp only [List.mem_append, List.mem_singleton, or_and_right, exists_or, exists_eq_left]
    rw [eq_comm (a := k)]
  · intro k id' hk
    obtain hold | ⟨-, rfl, hmem⟩ := hget k id' hk
    · obtain ⟨n, hn, hid⟩ := h.nodes k id' hold
      rw [visit_nodes]
      split
      · exact ⟨n, hn, hid⟩
      · exact ⟨n, List.mem_append_left _ hn, hid⟩
    · rw [visit_nodes, if_neg hmem]
      exact ⟨_, List.mem_append_right _ List.mem_cons_self, segmentNode_id⟩
  · intro k id' hk
    obtain hold | ⟨rfl, rfl, -⟩ := hget k id' hk
    · exact h.minted k id' hold
    · exact ⟨r, i, hmint⟩

/-- Inserting segments visits their prefixes. -/
theorem Built.insertSegments (h : Built ctx.iri seen d)
    (hd : HierarchicalDraft.insertSegments random ctx path (rest.zipIdx depth) (joined pre) prev d =
      .ok d') : Built ctx.iri (seen ++ prefixesFrom pre rest) d' := by
  induction rest generalizing seen pre depth prev d with
  | nil =>
    cases hd
    rwa [prefixesFrom, List.append_nil]
  | cons seg rest ih =>
    rw [List.zipIdx_cons] at hd
    obtain ⟨id, i, hmint, hrest⟩ := insertSegments_cons.mp hd
    rw [← joined_append_singleton] at hmint hrest
    have hnext := ih (h.visit hmint) hrest
    rwa [List.append_assoc, List.singleton_append] at hnext

/-- Every edge ends in nodes. -/
def Closed (nodes : List Node) (edges : List Edge) : Prop :=
  ∀ e ∈ edges, (∃ n ∈ nodes, n.id = e.source) ∧ ∃ n ∈ nodes, n.id = e.target

/-- The edges that supervise are those between the nodes of successive prefixes. -/
def Supervises (ids : BTreeMap String NodeId) (seen : List (List String)) (edges : List Edge) :
    Prop :=
  ∀ a b, (∃ e ∈ edges, e.label = "supervises" ∧ e.source = a ∧ e.target = b) ↔
    ∃ p s, p ≠ [] ∧ p ++ [s] ∈ seen ∧ ids[joined p]? = some a ∧ ids[joined (p ++ [s])]? = some b

/-- The edges of a draft make the tree of the visited prefixes. -/
structure Tree (seen : List (List String)) (d : HierarchicalDraft) : Prop where
  above : ∀ p s, p ≠ [] → p ++ [s] ∈ seen → p ∈ seen
  closed : Closed d.nodes d.edges
  supervises : Supervises d.prefixToId seen d.edges

/-- The id that the edge to the next prefix starts at. -/
def Parent (seen : List (List String)) (d : HierarchicalDraft) (pre : List String) :
    Option NodeId → Prop
  | none => pre = []
  | some parent => pre ≠ [] ∧ pre ∈ seen ∧ d.prefixToId[joined pre]? = some parent

/-- A visit extends the tree if it mints the id that its prefix has, or adds no edge. -/
theorem Tree.visit (hbuilt : Built ctx.iri seen d) (h : Tree seen d)
    (hparent : Parent seen d pre prev)
    (hmint : ctx.iri.mintActor r (.parse (joined (pre ++ [segment]))) = .ok (id, i))
    (hsame : prev ≠ none → ∀ id', d.prefixToId[joined (pre ++ [segment])]? = some id' → id' = id) :
    Tree (seen ++ [pre ++ [segment]])
      (visit ctx path (joined (pre ++ [segment])) segment depth prev id i d) := by
  have hbuilt' := @Built.visit _ ctx path segment depth prev r id i d seen _ hbuilt hmint
  have hnodes : ∀ n ∈ d.nodes, n ∈
      (Supervision.visit ctx path (joined (pre ++ [segment])) segment depth prev id i d).nodes := by
    intro n hn
    rw [visit_nodes]
    split
    · exact hn
    · exact List.mem_append_left _ hn
  have hget : ∀ p ∈ seen,
      (Supervision.visit ctx path (joined (pre ++ [segment])) segment depth prev id i d).prefixToId[
        joined p]? = d.prefixToId[joined p]? := fun p hp =>
          get_visit_of_mem ((hbuilt.keys _).mpr ⟨p, hp, rfl⟩)
  have hlast :
    ∀ {p : List String} {s : String}, p ++ [s] = pre ++ [segment] → p = pre ∧ s = segment :=
    fun h => by simpa using List.append_inj' h rfl
  constructor
  · intro p s hp hmem
    rcases List.mem_append.mp hmem with hold | hnew
    · exact List.mem_append_left _ (h.above p s hp hold)
    · obtain ⟨rfl, rfl⟩ := hlast (List.mem_singleton.mp hnew)
      cases prev with
      | none => exact absurd hparent hp
      | some parent => exact List.mem_append_left _ hparent.2.1
  · intro e he
    rw [visit_edges] at he
    rcases List.mem_append.mp he with hold | hnew
    · obtain ⟨⟨n, hn, hsource⟩, m, hm, htarget⟩ := h.closed e hold
      exact ⟨⟨n, hnodes n hn, hsource⟩, m, hnodes m hm, htarget⟩
    · cases prev with
      | none => cases hnew
      | some parent =>
        obtain rfl := List.mem_singleton.mp hnew
        obtain ⟨n, hn, hsource⟩ := hbuilt.nodes _ _ hparent.2.2
        exact ⟨⟨n, hnodes n hn, hsource⟩,
          hbuilt'.nodes _ _ (get_visit_self (hsame (Option.some_ne_none parent)))⟩
  · intro a b
    rw [visit_edges]
    constructor
    · intro hedge
      obtain ⟨e, he, hlabel, rfl, rfl⟩ := hedge
      rcases List.mem_append.mp he with hold | hnew
      · obtain ⟨p, s, hp, hmem, ha, hb⟩ := (h.supervises _ _).mp ⟨e, hold, hlabel, rfl, rfl⟩
        exact ⟨p, s, hp, List.mem_append_left _ hmem, (hget p (h.above p s hp hmem)).trans ha,
          (hget _ hmem).trans hb⟩
      · cases prev with
        | none => cases hnew
        | some parent =>
          obtain rfl := List.mem_singleton.mp hnew
          exact ⟨pre, segment, hparent.1, List.mem_append_right _ List.mem_cons_self,
            (hget pre hparent.2.1).trans hparent.2.2,
            get_visit_self (hsame (Option.some_ne_none parent))⟩
    · intro hpair
      obtain ⟨p, s, hp, hmem, ha, hb⟩ := hpair
      rcases List.mem_append.mp hmem with hold | hnew
      · rw [hget p (h.above p s hp hold)] at ha
        rw [hget _ hold] at hb
        obtain ⟨e, he, hedge⟩ := (h.supervises a b).mpr ⟨p, s, hp, hold, ha, hb⟩
        exact ⟨e, List.mem_append_left _ he, hedge⟩
      · obtain ⟨rfl, rfl⟩ := hlast (List.mem_singleton.mp hnew)
        cases prev with
        | none => exact absurd hparent hp
        | some parent =>
          rw [hget p hparent.2.1, hparent.2.2] at ha
          rw [get_visit_self (hsame (Option.some_ne_none parent))] at hb
          exact ⟨_, List.mem_append_right _ List.mem_cons_self, rfl, Option.some.inj ha,
            Option.some.inj hb⟩

omit [Blake3] in
/-- A longer path has another text. -/
theorem joined_append_ne (p : List String) {front : List String} (h : front ≠ []) :
    joined (p ++ front) ≠ joined p := by
  intro heq
  have hchars := congrArg String.toList heq
  rw [toList_joined, toList_joined, List.flatMap_append, List.append_right_eq_self] at hchars
  cases front with
  | nil => exact h rfl
  | cons seg front => cases hchars

omit [Blake3] in
/-- A path is written as its segments, joined. -/
theorem render_eq_joined (hne : path.segments ≠ []) : path.render = joined path.segments := by
  have hsegments : joined path.segments ≠ "" := by
    have hlonger := joined_append_ne [] hne
    rwa [List.nil_append] at hlonger
  unfold SupervisionPath.render
  exact if_neg (by simpa [String.isEmpty_iff, joined] using hsegments)

omit [Blake3] in
/-- A joined path is read and written as it was. -/
theorem render_parse_joined (hne : q ≠ []) :
    (SupervisionPath.parse (joined q)).render = joined q := by
  obtain ⟨seg, rest, rfl⟩ := List.exists_cons_of_ne_nil hne
  have hchars : joined (seg :: rest) =
      .ofList ('/' :: (seg.toList ++ rest.flatMap fun seg => '/' :: seg.toList)) := by
    rw [← String.toList_inj, toList_joined, String.toList_ofList]
    simp
  rw [hchars, SupervisionPath.render_parse]

/-- The id of a path is that of its last prefix. -/
theorem mintActor_parse_joined {iri : IriMintingStrategy} (hne : path.segments ≠ []) :
    iri.mintActor r (.parse (joined path.segments)) = iri.mintActor r path := by
  unfold IriMintingStrategy.mintActor
  rw [render_parse_joined hne, render_eq_joined hne]

/-- The visits of a path extend the tree if ids are not random or no prefix has an id yet. -/
theorem Tree.insertSegments (hbuilt : Built ctx.iri seen d) (h : Tree seen d)
    (hparent : Parent seen d pre prev)
    (hsame : ctx.iri ≠ .uuid ∨ ∀ q ∈ prefixesFrom pre rest, joined q ∉ d.prefixToId)
    (hd : HierarchicalDraft.insertSegments random ctx path (rest.zipIdx depth) (joined pre) prev d =
      .ok d') : Tree (seen ++ prefixesFrom pre rest) d' := by
  induction rest generalizing seen pre depth prev d with
  | nil =>
    cases hd
    rwa [prefixesFrom, List.append_nil]
  | cons seg rest ih =>
    rw [List.zipIdx_cons] at hd
    obtain ⟨id, i, hmint, hrest⟩ := insertSegments_cons.mp hd
    rw [← joined_append_singleton] at hmint hrest
    have hid : ∀ id', d.prefixToId[joined (pre ++ [seg])]? = some id' → id' = id := by
      intro id' hid'
      rcases hsame with hiri | hnew
      · obtain ⟨r, i', hminted⟩ := hbuilt.minted _ _ hid'
        rw [IriMintingStrategy.mintActor_of_ne_uuid hiri r (random d.minted), hmint] at hminted
        exact (congrArg Prod.fst (Except.ok.inj hminted)).symm
      · have hnone := hnew (pre ++ [seg]) List.mem_cons_self
        rw [Std.ExtTreeMap.mem_iff_isSome_getElem?, hid'] at hnone
        exact absurd rfl hnone
    have htree : Tree (seen ++ [pre ++ [seg]])
        (Supervision.visit ctx path (joined (pre ++ [seg])) seg depth prev id i d) :=
      h.visit hbuilt hparent hmint fun _ => hid
    have hparent' : Parent (seen ++ [pre ++ [seg]])
        (Supervision.visit ctx path (joined (pre ++ [seg])) seg depth prev id i d) (pre ++ [seg])
        (some id) :=
      ⟨by simp, List.mem_append_right _ List.mem_cons_self, get_visit_self hid⟩
    -- the prefixes that are left are longer than the one just visited
    have hsame' : ctx.iri ≠ .uuid ∨ ∀ q ∈ prefixesFrom (pre ++ [seg]) rest, joined q ∉
        (Supervision.visit ctx path (joined (pre ++ [seg])) seg depth prev id i d).prefixToId := by
      refine hsame.imp_right fun hnew q hq hmem => ?_
      rcases mem_visit.mp hmem with hold | heq
      · exact hnew q (List.mem_cons_of_mem _ hq) hold
      · obtain ⟨front, hfront, -, rfl⟩ := mem_prefixesFrom.mp hq
        exact joined_append_ne _ hfront heq
    have hnext := ih (hbuilt.visit hmint) htree hparent' hsame' hrest
    rwa [List.append_assoc, List.singleton_append] at hnext

/-- No path with two segments starts like an earlier path. -/
def Apart (paths : List SupervisionPath) : Prop :=
  paths.Pairwise fun p q => 2 ≤ q.segments.length → p.segments.head? ≠ q.segments.head?

omit [Blake3] in
/-- A further path is visited after the others. -/
theorem visits_append (paths : List SupervisionPath) (path : SupervisionPath) :
    visits (paths ++ [path]) = visits paths ++ prefixesFrom [] path.segments := by
  simp [visits]

omit [Blake3] in
/-- A prefix that is not empty starts as the whole does. -/
theorem head?_of_isPrefix {p l : List String} (h : p <+: l) (hne : p ≠ []) : p.head? = l.head? := by
  obtain ⟨rest, rfl⟩ := h
  cases p with
  | nil => exact absurd rfl hne
  | cons seg p => rfl

omit [Blake3] in
/-- The prefixes of plain segments are plain. -/
theorem Plain.of_isPrefix {p l : List String} (h : Plain l) (hp : p <+: l) : Plain p :=
  fun seg hseg => h seg (hp.subset hseg)

/-- The prefixes of a path that starts like no earlier path have no ids yet. -/
theorem not_mem_of_apart {iri : IriMintingStrategy} (hbuilt : Built iri (visits hist) d)
    (hplain : ∀ p ∈ hist, Plain p.segments) (hpath : Plain path.segments)
    (hapart : ∀ p ∈ hist, p.segments.head? ≠ path.segments.head?) :
    ∀ q ∈ prefixesFrom [] path.segments, joined q ∉ d.prefixToId := by
  intro q hq hmem
  obtain ⟨q', hq', heq⟩ := (hbuilt.keys _).mp hmem
  obtain ⟨p, hp, hne, hstarts⟩ := mem_visits.mp hq'
  obtain ⟨front, hfront, hwithin, rfl⟩ := mem_prefixesFrom.mp hq
  obtain rfl := joined_injective ((hplain p hp).of_isPrefix hstarts) (hpath.of_isPrefix hwithin) heq
  exact hapart p hp ((head?_of_isPrefix hstarts hne).symm.trans (head?_of_isPrefix hwithin hne))

/-- Inserting a path keeps a draft built. -/
theorem Built.insertPath (h : Built ctx.iri (visits hist) d)
    (hd : HierarchicalDraft.insertPath random ctx d path = .ok d') :
    Built ctx.iri (visits (hist ++ [path])) d' := by
  rw [visits_append]
  exact h.insertSegments hd

/-- A path extends the tree if ids are not random, or it starts like no earlier path, or it has
one segment. -/
theorem Tree.insertPath (hbuilt : Built ctx.iri (visits hist) d) (h : Tree (visits hist) d)
    (hplain : ∀ p ∈ hist, Plain p.segments) (hpath : Plain path.segments)
    (hsame : ctx.iri ≠ .uuid ∨
      (2 ≤ path.segments.length → ∀ p ∈ hist, p.segments.head? ≠ path.segments.head?))
    (hd : HierarchicalDraft.insertPath random ctx d path = .ok d') :
    Tree (visits (hist ++ [path])) d' := by
  have hroot : Parent (visits hist) d [] none := rfl
  rw [visits_append]
  by_cases htwo : 2 ≤ path.segments.length
  · exact h.insertSegments hbuilt hroot
      (hsame.imp_right fun h => not_mem_of_apart hbuilt hplain hpath (h htwo)) hd
  · rw [HierarchicalDraft.insertPath] at hd
    match hsegments : path.segments with
    | [] =>
      rw [hsegments] at hd
      cases hd
      rwa [prefixesFrom, List.append_nil]
    | [seg] =>
      rw [hsegments, List.zipIdx_cons, List.zipIdx_nil] at hd
      obtain ⟨id, i, hmint, hrest⟩ := insertSegments_cons.mp hd
      cases hrest
      exact h.visit hbuilt hroot hmint fun hnone => absurd rfl hnone
    | _ :: _ :: _ => simp [hsegments] at htwo

/-- The draft with an event that has an id. -/
def emit (toRfc3339 : DateTime → String) (ctx : ProjectionCtx) (event : JournalEvent) (id : NodeId)
    (iri : Option Iri) (d : HierarchicalDraft) : HierarchicalDraft :=
  let d := { d.pushNode (eventNode toRfc3339 ctx event id iri) with minted := d.minted + 1 }
  match event.path with
  | none => d
  | some path =>
    match d.prefixToId[path.render]? with
    | some actorId => d.pushEdge (.between actorId "emitted" id)
    | none => d

variable {event : JournalEvent} {state : SerializedState}

/-- An event is inserted after its path, with an id that is minted then. -/
theorem insertEvent_ok
    (hd : HierarchicalDraft.insertEvent random toRfc3339 ctx d event = .ok d') :
    ∃ d₁ id i, event.path.toList.foldlM (HierarchicalDraft.insertPath random ctx) d = .ok d₁ ∧
      ctx.iri.mintEvent (random d₁.minted) event = .ok (id, i) ∧
      d' = emit toRfc3339 ctx event id i d₁ := by
  unfold HierarchicalDraft.insertEvent at hd
  cases hevent : event.path with
  | none =>
    rw [hevent] at hd
    obtain ⟨d₁, hpath, hrest⟩ := bind_eq_ok.mp hd
    obtain ⟨⟨id, i⟩, hmint, hpure⟩ := bind_eq_ok.mp hrest
    refine ⟨d₁, id, i, hpath, hmint, ?_⟩
    rw [emit, hevent]
    exact (Except.ok.inj hpure).symm
  | some path =>
    rw [hevent] at hd
    obtain ⟨d₁, hpath, hrest⟩ := bind_eq_ok.mp hd
    obtain ⟨⟨id, i⟩, hmint, hpure⟩ := bind_eq_ok.mp hrest
    refine ⟨d₁, id, i, ?_, hmint, ?_⟩
    · simp only [Option.toList_some, List.foldlM_cons, List.foldlM_nil, bind_pure]
      exact hpath
    · rw [emit, hevent]
      dsimp only at hpure ⊢
      cases hactor : (d₁.pushNode (eventNode toRfc3339 ctx event id i)).prefixToId[path.render]?
        with
      | none =>
        simp only [hactor] at hpure ⊢
        exact (Except.ok.inj hpure).symm
      | some actorId =>
        simp only [hactor] at hpure ⊢
        exact (Except.ok.inj hpure).symm

/-- What a draft gains with an event or a state: a node, and perhaps an edge to it. -/
structure Attaches (n : Node) (d d' : HierarchicalDraft) : Prop where
  prefixToId : d'.prefixToId = d.prefixToId
  nodes : d'.nodes = d.nodes ++ [n]
  edges : d'.edges = d.edges ∨ ∃ (k : String) (actorId : NodeId) (label : String),
    d.prefixToId[k]? = some actorId ∧ label ≠ "supervises" ∧
      d'.edges = d.edges ++ [Edge.between actorId label n.id]

/-- Attaching a node keeps the edges. -/
theorem Attaches.edges_subset {n : Node} (h : Attaches n d d') : d.edges ⊆ d'.edges := by
  obtain hsame | ⟨_, _, _, _, _, hedges⟩ := h.edges
  · rw [hsame]
    exact fun _ he => he
  · rw [hedges]
    exact List.subset_append_left _ _

/-- Attaching a node keeps a draft built. -/
theorem Attaches.built {iri : IriMintingStrategy} {n : Node} (h : Attaches n d d')
    (hbuilt : Built iri seen d) : Built iri seen d' := by
  constructor
  · rw [h.prefixToId]
    exact hbuilt.keys
  · rw [h.prefixToId, h.nodes]
    intro k id hk
    obtain ⟨m, hm, hid⟩ := hbuilt.nodes k id hk
    exact ⟨m, List.mem_append_left _ hm, hid⟩
  · rw [h.prefixToId]
    exact hbuilt.minted

/-- Attaching a node keeps the supervision edges a tree. -/
theorem Attaches.tree {iri : IriMintingStrategy} {n : Node} (h : Attaches n d d')
    (hbuilt : Built iri seen d) (htree : Tree seen d) : Tree seen d' := by
  have hclosed : Closed d'.nodes d.edges := by
    intro e he
    obtain ⟨⟨m, hm, hsource⟩, m', hm', htarget⟩ := htree.closed e he
    rw [h.nodes]
    exact ⟨⟨m, List.mem_append_left _ hm, hsource⟩, m', List.mem_append_left _ hm', htarget⟩
  refine ⟨htree.above, ?_, ?_⟩
  · obtain hsame | ⟨k, actorId, label, hk, -, hedges⟩ := h.edges
    · rwa [hsame]
    · rw [hedges]
      intro e he
      rcases List.mem_append.mp he with hold | hnew
      · exact hclosed e hold
      · obtain rfl := List.mem_singleton.mp hnew
        obtain ⟨m, hm, hid⟩ := (h.built hbuilt).nodes k actorId (by rw [h.prefixToId, hk])
        refine ⟨⟨m, hm, hid⟩, n, ?_, rfl⟩
        rw [h.nodes]
        exact List.mem_append_right _ List.mem_cons_self
  · rw [h.prefixToId]
    obtain hsame | ⟨k, actorId, label, -, hlabel, hedges⟩ := h.edges
    · rw [hsame]
      exact htree.supervises
    · intro a b
      rw [hedges, ← htree.supervises a b]
      constructor
      · intro hedge
        obtain ⟨e, he, hsupervises, hends⟩ := hedge
        rcases List.mem_append.mp he with hold | hnew
        · exact ⟨e, hold, hsupervises, hends⟩
        · obtain rfl := List.mem_singleton.mp hnew
          exact absurd hsupervises hlabel
      · intro hedge
        obtain ⟨e, he, hspec⟩ := hedge
        exact ⟨e, List.mem_append_left _ he, hspec⟩

/-- An event is attached to the draft. -/
theorem attaches_emit : Attaches (eventNode toRfc3339 ctx event id i) d
    (emit toRfc3339 ctx event id i d) := by
  unfold emit
  dsimp only
  split
  · exact ⟨rfl, rfl, Or.inl rfl⟩
  · split
    · next actorId hget =>
      refine ⟨rfl, rfl, Or.inr ⟨_, actorId, "emitted", hget, by decide, ?_⟩⟩
      rw [eventNode_id]
      rfl
    · exact ⟨rfl, rfl, Or.inl rfl⟩

/-- A state is attached to the draft. -/
theorem attaches_insertState :
    Attaches (stateNode ctx state) d (HierarchicalDraft.insertState ctx d state) := by
  unfold HierarchicalDraft.insertState
  dsimp only
  split
  · next k actorId hfind =>
    have hmem := List.mem_of_find?_eq_some hfind
    exact ⟨rfl, rfl, Or.inr ⟨k, actorId, "holdsState",
      Std.ExtTreeMap.mem_toList_iff_getElem?_eq_some.mp hmem, by decide, rfl⟩⟩
  · exact ⟨rfl, rfl, Or.inl rfl⟩

/-- What a draft gains while ids are drawn: nodes with the ids that were drawn. -/
structure Grows (random : Nat → NodeId) (d d' : HierarchicalDraft) : Prop where
  minted : d.minted ≤ d'.minted
  nodes : ∀ n ∈ d'.nodes, n ∈ d.nodes ∨ ∃ j, d.minted ≤ j ∧ j < d'.minted ∧ n.id = random j
  edges : d.edges ⊆ d'.edges

omit [Blake3] in
/-- A draft grows into itself. -/
theorem Grows.refl (random : Nat → NodeId) (d : HierarchicalDraft) : Grows random d d :=
  ⟨Nat.le_refl _, fun _ hn => Or.inl hn, fun _ he => he⟩

omit [Blake3] in
/-- Growing twice is growing. -/
theorem Grows.trans {d₁ : HierarchicalDraft} (h : Grows random d d₁) (h' : Grows random d₁ d') :
    Grows random d d' := by
  refine ⟨h.minted.trans h'.minted, ?_, fun e he => h'.edges (h.edges he)⟩
  intro n hn
  obtain hmem | ⟨j, hle, hlt, hid⟩ := h'.nodes n hn
  · obtain hold | ⟨j, hle, hlt, hid⟩ := h.nodes n hmem
    · exact Or.inl hold
    · exact Or.inr ⟨j, hle, Nat.lt_of_lt_of_le hlt h'.minted, hid⟩
  · exact Or.inr ⟨j, h.minted.trans hle, hlt, hid⟩

/-- A draft grows by a visit. -/
theorem Grows.visit : Grows random d
    (visit ctx path current segment depth prev (random d.minted) i d) := by
  refine ⟨?_, ?_, ?_⟩
  · rw [visit_minted]
    omega
  · rw [visit_nodes, visit_minted]
    intro n hn
    split at hn
    · exact Or.inl hn
    · rcases List.mem_append.mp hn with hold | hnew
      · exact Or.inl hold
      · obtain rfl := List.mem_singleton.mp hnew
        exact Or.inr ⟨d.minted, Nat.le_refl _, Nat.lt_succ_self _, segmentNode_id⟩
  · rw [visit_edges]
    exact List.subset_append_left _ _

/-- Random ids are minted as they are drawn. -/
theorem mintActor_uuid (hiri : ctx.iri = .uuid) {path : SupervisionPath}
    (h : ctx.iri.mintActor r path = .ok (id, i)) : id = r := by
  rw [hiri] at h
  exact (congrArg Prod.fst (Except.ok.inj h)).symm

/-- A draft grows by the segments of a path. -/
theorem grows_insertSegments (hiri : ctx.iri = .uuid) {rest : List (String × Nat)}
    (hd : HierarchicalDraft.insertSegments random ctx path rest current prev d = .ok d') :
    Grows random d d' := by
  induction rest generalizing current prev d with
  | nil =>
    cases hd
    exact .refl random _
  | cons s rest ih =>
    obtain ⟨id, i, hmint, hrest⟩ := insertSegments_cons.mp hd
    obtain rfl := mintActor_uuid hiri hmint
    exact Grows.visit.trans (ih hrest)

/-- All ids of nodes were drawn. -/
def Drawn (random : Nat → NodeId) (d : HierarchicalDraft) : Prop :=
  ∀ n ∈ d.nodes, ∃ j, j < d.minted ∧ n.id = random j

/-- Some edge starts at an id that was drawn for none of the nodes. -/
def Lost (random : Nat → NodeId) (d : HierarchicalDraft) : Prop :=
  ∃ e ∈ d.edges, ∃ k, k < d.minted ∧ e.source = random k ∧
    ∀ n ∈ d.nodes, ∃ j, j < d.minted ∧ j ≠ k ∧ n.id = random j

omit [Blake3] in
/-- Ids stay drawn while a draft grows. -/
theorem Drawn.grows (h : Drawn random d) (hd : Grows random d d') : Drawn random d' := by
  intro n hn
  obtain hold | ⟨j, -, hlt, hid⟩ := hd.nodes n hn
  · obtain ⟨j, hlt, hid⟩ := h n hold
    exact ⟨j, Nat.lt_of_lt_of_le hlt hd.minted, hid⟩
  · exact ⟨j, hlt, hid⟩

omit [Blake3] in
/-- Lost edges stay lost while a draft grows. -/
theorem Lost.grows (h : Lost random d) (hd : Grows random d d') : Lost random d' := by
  obtain ⟨e, he, k, hk, hsource, hnodes⟩ := h
  refine ⟨e, hd.edges he, k, Nat.lt_of_lt_of_le hk hd.minted, hsource, ?_⟩
  intro n hn
  obtain hold | ⟨j, hle, hlt, hid⟩ := hd.nodes n hn
  · obtain ⟨j, hlt, hne, hid⟩ := hnodes n hold
    exact ⟨j, Nat.lt_of_lt_of_le hlt hd.minted, hne, hid⟩
  · exact ⟨j, hlt, by omega, hid⟩

/-- A path with two segments whose first prefix has an id loses the id that it draws for it. -/
theorem lost_insertSegments (hiri : ctx.iri = .uuid) (hdrawn : Drawn random d) {seg seg' : String}
    {rest : List String} (hmem : joined [seg] ∈ d.prefixToId)
    (hd : HierarchicalDraft.insertSegments random ctx path ((seg :: seg' :: rest).zipIdx)
      (joined [])
      none d = .ok d') : Lost random d' := by
  rw [List.zipIdx_cons, List.zipIdx_cons] at hd
  obtain ⟨id, i, hmint, hd⟩ := insertSegments_cons.mp hd
  obtain rfl := mintActor_uuid hiri hmint
  obtain ⟨id', i', hmint', hd⟩ := insertSegments_cons.mp hd
  obtain rfl := mintActor_uuid hiri hmint'
  refine Lost.grows ?_ (grows_insertSegments hiri hd)
  refine ⟨.between (random d.minted) "supervises" (random (d.minted + 1)), ?_, d.minted, ?_,
    rfl, ?_⟩
  · rw [visit_edges, visit_minted]
    exact List.mem_append_right _ List.mem_cons_self
  · rw [visit_minted, visit_minted]
    omega
  · intro n hn
    have hkept :
      (Supervision.visit ctx path (joined [] ++ "/" ++ seg) seg 0 none (random d.minted) i
        d).nodes = d.nodes := by
      rw [visit_nodes]
      exact if_pos hmem
    rw [visit_minted, visit_minted]
    rw [visit_nodes, visit_minted, hkept] at hn
    split at hn
    · obtain ⟨j, hlt, hid⟩ := hdrawn n hn
      exact ⟨j, by omega, by omega, hid⟩
    · rcases List.mem_append.mp hn with hold | hnew
      · obtain ⟨j, hlt, hid⟩ := hdrawn n hold
        exact ⟨j, by omega, by omega, hid⟩
      · obtain rfl := List.mem_singleton.mp hnew
        exact ⟨d.minted + 1, by omega, by omega, segmentNode_id⟩

/-- A draft grows by an event. -/
theorem grows_emit : Grows random d (emit toRfc3339 ctx event (random d.minted) i d) := by
  have hattaches := @attaches_emit _ toRfc3339 ctx (random d.minted) i d event
  have hminted : (emit toRfc3339 ctx event (random d.minted) i d).minted = d.minted + 1 := by
    unfold emit
    dsimp only
    split
    · rfl
    · split <;> rfl
  refine ⟨by omega, ?_, hattaches.edges_subset⟩
  rw [hattaches.nodes, hminted]
  intro n hn
  rcases List.mem_append.mp hn with hold | hnew
  · exact Or.inl hold
  · obtain rfl := List.mem_singleton.mp hnew
    exact Or.inr ⟨d.minted, Nat.le_refl _, Nat.lt_succ_self _, eventNode_id⟩

/-- A batch is drafted from its paths, then its events, then its states. -/
theorem ofBatch_ok_iff {batch : ActorBatch} :
    HierarchicalDraft.ofBatch random toRfc3339 ctx batch = .ok d ↔ ∃ d₁ d₂,
      batch.paths.foldlM (HierarchicalDraft.insertPath random ctx) .empty = .ok d₁ ∧
      batch.events.foldlM (HierarchicalDraft.insertEvent random toRfc3339 ctx) d₁ = .ok d₂ ∧
      d = batch.states.foldl (HierarchicalDraft.insertState ctx) d₂ := by
  unfold HierarchicalDraft.ofBatch
  rw [bind_eq_ok]
  constructor
  · intro h
    obtain ⟨d₁, hpaths, hrest⟩ := h
    obtain ⟨d₂, hevents, hpure⟩ := bind_eq_ok.mp hrest
    exact ⟨d₁, d₂, hpaths, hevents, (Except.ok.inj hpure).symm⟩
  · intro h
    obtain ⟨d₁, d₂, hpaths, hevents, rfl⟩ := h
    exact ⟨d₁, hpaths, bind_eq_ok.mpr ⟨d₂, hevents, rfl⟩⟩

/-- What is projected is what the draft holds. -/
theorem project_ok_iff {label : String} {batch : ActorBatch}
    {delta : OntologyDelta} :
    (hierarchicalProjection random toRfc3339 label).project batch ctx = .ok delta ↔
      ∃ d, HierarchicalDraft.ofBatch random toRfc3339 ctx batch = .ok d ∧
        delta = ⟨d.nodes, d.edges, []⟩ := by
  unfold hierarchicalProjection
  dsimp only
  cases HierarchicalDraft.ofBatch random toRfc3339 ctx batch with
  | error e => simp
  | ok d => simp [eq_comm]

/-- What holds of a draft after some paths. -/
structure After (random : Nat → NodeId) (iri : IriMintingStrategy) (hist : List SupervisionPath)
    (d : HierarchicalDraft) : Prop where
  built : Built iri (visits hist) d
  tree : iri ≠ .uuid ∨ Apart hist → Tree (visits hist) d
  drawn : iri = .uuid → Drawn random d
  lost : iri = .uuid → ¬Apart hist → Lost random d

omit [Blake3] in
/-- A further path keeps paths apart if it starts as no other one, unless it is short. -/
theorem apart_append : Apart (hist ++ [path]) ↔ Apart hist ∧
    (2 ≤ path.segments.length → ∀ p ∈ hist, p.segments.head? ≠ path.segments.head?) := by
  rw [Apart, List.pairwise_append]
  simp only [List.pairwise_singleton, List.mem_singleton, forall_eq, true_and, Apart]
  exact and_congr_right fun _ => ⟨fun h htwo p hp => h p hp htwo, fun h p hp htwo => h htwo p hp⟩

/-- Nothing was inserted yet. -/
theorem After.empty (random : Nat → NodeId) (iri : IriMintingStrategy) :
    After random iri [] .empty where
  built := ⟨by simp [HierarchicalDraft.empty, visits], by simp [HierarchicalDraft.empty],
    by simp [HierarchicalDraft.empty]⟩
  tree _ := ⟨by simp [visits], by simp [Closed, HierarchicalDraft.empty],
    by simp [Supervises, HierarchicalDraft.empty, visits]⟩
  drawn _ := by simp [Drawn, HierarchicalDraft.empty]
  lost _ h := absurd List.Pairwise.nil h

/-- Inserting a path keeps what is known of the draft. -/
theorem After.insertPath (hplain : ∀ p ∈ hist, Plain p.segments) (hpath : Plain path.segments)
    (h : After random ctx.iri hist d)
    (hd : HierarchicalDraft.insertPath random ctx d path = .ok d') :
    After random ctx.iri (hist ++ [path]) d' := by
  constructor
  · exact h.built.insertPath hd
  · intro hsame
    refine (h.tree ?_).insertPath h.built hplain hpath ?_ hd
    · exact hsame.imp_right fun h => (apart_append.mp h).1
    · exact hsame.imp_right fun h => (apart_append.mp h).2
  · intro hiri
    exact (h.drawn hiri).grows (grows_insertSegments hiri hd)
  · intro hiri hclash
    by_cases hbefore : Apart hist
    · -- the path starts like an earlier one, so its first prefix has an id
      have hnew : ¬(2 ≤ path.segments.length →
          ∀ p ∈ hist, p.segments.head? ≠ path.segments.head?) :=
        fun h => hclash (apart_append.mpr ⟨hbefore, h⟩)
      push Not at hnew
      obtain ⟨htwo, p, hp, hhead⟩ := hnew
      rw [HierarchicalDraft.insertPath] at hd
      match hsegments : path.segments with
      | [] => simp [hsegments] at htwo
      | [_] => simp [hsegments] at htwo
      | seg :: seg' :: rest =>
        rw [hsegments] at hd hhead
        refine lost_insertSegments hiri (h.drawn hiri) ?_ hd
        refine (h.built.keys _).mpr ⟨[seg], mem_visits.mpr ⟨p, hp, List.cons_ne_nil _ _, ?_⟩, rfl⟩
        obtain ⟨rest', hrest'⟩ := List.head?_eq_some_iff.mp hhead
        rw [hrest']
        exact List.prefix_append [seg] rest'
    · exact (h.lost hiri hbefore).grows (grows_insertSegments hiri hd)

/-- So does an event. -/
theorem After.emit (h : After random ctx.iri hist d)
    (hmint : ctx.iri.mintEvent (random d.minted) event = .ok (id, i)) :
    After random ctx.iri hist (emit toRfc3339 ctx event id i d) := by
  have hattaches := @attaches_emit _ toRfc3339 ctx id i d event
  have hgrows : ctx.iri = .uuid → Grows random d (Supervision.emit toRfc3339 ctx event id i d) := by
    intro hiri
    rw [hiri] at hmint
    obtain rfl := congrArg Prod.fst (Except.ok.inj hmint)
    exact grows_emit
  exact ⟨hattaches.built h.built, fun hsame => hattaches.tree h.built (h.tree hsame),
    fun hiri => (h.drawn hiri).grows (hgrows hiri),
    fun hiri hclash => (h.lost hiri hclash).grows (hgrows hiri)⟩

omit [Blake3] in
/-- What every step of a loop keeps, while the items that are done grow, holds after the loop. -/
theorem foldlM_induction {ι σ ε : Type} {step : σ → ι → Except ε σ} {P : List ι → σ → Prop}
    {xs : List ι} {s t : σ} (hstart : P [] s)
    (hstep : ∀ done x s t, done ++ [x] <+: xs → P done s → step s x = .ok t → P (done ++ [x]) t)
    (h : xs.foldlM step s = .ok t) : P xs t := by
  have hrun : ∀ (todo done : List ι) (s : σ), done ++ todo = xs → P done s →
      todo.foldlM step s = .ok t → P xs t := by
    intro todo
    induction todo with
    | nil =>
      intro done s hxs hdone hs
      cases hs
      rwa [← hxs, List.append_nil]
    | cons x todo ih =>
      intro done s hxs hdone hs
      rw [List.foldlM_cons] at hs
      obtain ⟨u, hu, hrest⟩ := bind_eq_ok.mp hs
      have hxs' : (done ++ [x]) ++ todo = xs := by
        rw [List.append_assoc, List.singleton_append, hxs]
      exact ih (done ++ [x]) u hxs' (hstep done x s u ⟨todo, hxs'⟩ hdone hu) hrest
  exact hrun xs [] s rfl hstart h

/-- What every path extends and no event breaks holds after the paths and events of a batch. -/
theorem draft_induction {paths : List SupervisionPath} {events : List JournalEvent}
    {P : List SupervisionPath → HierarchicalDraft → Prop} {d₁ d₂ : HierarchicalDraft}
    (hempty : P [] .empty)
    (hpath : ∀ hist path d d', hist ++ [path] <+: paths ++ events.filterMap (·.path) → P hist d →
      HierarchicalDraft.insertPath random ctx d path = .ok d' → P (hist ++ [path]) d')
    (hemit : ∀ hist event d id i, P hist d →
      ctx.iri.mintEvent (random d.minted) event = .ok (id, i) →
      P hist (emit toRfc3339 ctx event id i d))
    (hpaths : paths.foldlM (HierarchicalDraft.insertPath random ctx) .empty = .ok d₁)
    (hevents : events.foldlM (HierarchicalDraft.insertEvent random toRfc3339 ctx) d₁ = .ok d₂) :
    P (paths ++ events.filterMap (·.path)) d₂ := by
  have hafter : P paths d₁ := by
    refine foldlM_induction hempty ?_ hpaths
    intro done path s t hwithin hdone hstep
    exact hpath done path s t (hwithin.trans (List.prefix_append _ _)) hdone hstep
  refine foldlM_induction (P := fun done d => P (paths ++ done.filterMap (·.path)) d)
    (by simpa using hafter) ?_ hevents
  intro done event s t hwithin hdone hstep
  obtain ⟨u, id, i, hinsert, hmint, rfl⟩ := insertEvent_ok hstep
  refine hemit _ event u id i ?_ hmint
  have hmore := hwithin.filterMap (·.path)
  rw [List.filterMap_append] at hmore ⊢
  cases hevent : event.path with
  | none =>
    rw [hevent] at hinsert
    cases hinsert
    simpa [hevent] using hdone
  | some path =>
    rw [hevent, Option.toList_some, List.foldlM_cons] at hinsert
    obtain ⟨v, hv, hnil⟩ := bind_eq_ok.mp hinsert
    cases hnil
    have hone : [event].filterMap (·.path) = [path] := by simp [hevent]
    rw [hone] at hmore ⊢
    rw [← List.append_assoc]
    refine hpath _ path s u ?_ hdone hv
    rw [List.append_assoc]
    exact (List.prefix_append_right_inj paths).mpr hmore

/-- The draft of the paths and events of a batch. -/
theorem After.of_paths_events {paths : List SupervisionPath} {events : List JournalEvent}
    {d₁ d₂ : HierarchicalDraft}
    (hplain : ∀ p ∈ paths ++ events.filterMap (·.path), Plain p.segments)
    (hpaths : paths.foldlM (HierarchicalDraft.insertPath random ctx) .empty = .ok d₁)
    (hevents : events.foldlM (HierarchicalDraft.insertEvent random toRfc3339 ctx) d₁ = .ok d₂) :
    After random ctx.iri (paths ++ events.filterMap (·.path)) d₂ := by
  refine draft_induction (After.empty random ctx.iri) ?_ ?_ hpaths hevents
  · intro hist path d d' hwithin hafter hd
    have hmem : ∀ p ∈ hist ++ [path], Plain p.segments :=
      fun p hp => hplain p (hwithin.subset hp)
    exact hafter.insertPath (fun p hp => hmem p (List.mem_append_left _ hp))
      (hmem path (List.mem_append_right _ List.mem_cons_self)) hd
  · exact fun _ _ _ _ _ hafter hmint => hafter.emit hmint

/-- States change neither the prefix map nor the edges that supervise. -/
theorem attaches_states {iri : IriMintingStrategy} (states : List SerializedState)
    (hbuilt : Built iri seen d) :
    (states.foldl (HierarchicalDraft.insertState ctx) d).prefixToId = d.prefixToId ∧
    (states.foldl (HierarchicalDraft.insertState ctx) d).nodes =
      d.nodes ++ states.map (stateNode ctx) ∧
    d.edges ⊆ (states.foldl (HierarchicalDraft.insertState ctx) d).edges ∧
    (Tree seen d → Tree seen (states.foldl (HierarchicalDraft.insertState ctx) d)) := by
  induction states generalizing d with
  | nil => exact ⟨rfl, (List.append_nil _).symm, fun _ he => he, fun h => h⟩
  | cons state states ih =>
    have hattaches := @attaches_insertState _ ctx d state
    obtain ⟨hids, hnodes, hedges, htree⟩ := ih (hattaches.built hbuilt)
    refine ⟨hids.trans hattaches.prefixToId, ?_, fun e he => hedges (hattaches.edges_subset he),
      fun h => htree (hattaches.tree hbuilt h)⟩
    rw [List.foldl_cons, hnodes, hattaches.nodes, List.append_assoc]
    rfl

/-- States are not given random ids. -/
theorem minted_states (states : List SerializedState) :
    (states.foldl (HierarchicalDraft.insertState ctx) d).minted = d.minted := by
  induction states generalizing d with
  | nil => rfl
  | cons state states ih =>
    rw [List.foldl_cons, ih]
    unfold HierarchicalDraft.insertState
    dsimp only
    split <;> rfl

/-- The ids that were drawn are different, and none is the id of a state. -/
structure Fresh (random : Nat → NodeId) (ctx : ProjectionCtx) (batch : ActorBatch) (count : Nat) :
    Prop where
  distinct : ∀ j < count, ∀ k < count, random j = random k → j = k
  states : ∀ j < count, ∀ state ∈ batch.states, random j ≠ (stateNode ctx state).id

/-- A projected batch is referentially closed and has the supervision edges of its paths exactly
if ids are not random, or no path with two segments starts like an earlier one. -/
theorem supervision_closed_iff (random : Nat → NodeId) (toRfc3339 : DateTime → String)
    (label : String) (ctx : ProjectionCtx) (batch : ActorBatch) (d : HierarchicalDraft)
    (delta : OntologyDelta)
    (hdraft : HierarchicalDraft.ofBatch random toRfc3339 ctx batch = .ok d)
    (hdelta : (hierarchicalProjection random toRfc3339 label).project batch ctx = .ok delta)
    (hplain : ∀ path ∈ visited batch, Plain path.segments)
    (hfresh : Fresh random ctx batch d.minted) :
    Closed delta.nodes delta.edges ∧
        Supervises d.prefixToId (visits (visited batch)) delta.edges ↔
      ctx.iri ≠ .uuid ∨ Apart (visited batch) := by
  obtain ⟨d', hdraft', rfl⟩ := project_ok_iff.mp hdelta
  obtain rfl := Except.ok.inj (hdraft.symm.trans hdraft')
  obtain ⟨d₁, d₂, hpaths, hevents, rfl⟩ := ofBatch_ok_iff.mp hdraft
  have hafter := After.of_paths_events hplain hpaths hevents
  obtain ⟨hids, hnodes, hedges, htree⟩ := @attaches_states _ ctx _ _ _ batch.states hafter.built
  constructor
  · intro h
    by_contra hclash
    push Not at hclash
    obtain ⟨e, he, k, hk, hsource, hothers⟩ := hafter.lost hclash.1 hclash.2
    obtain ⟨⟨n, hn, hid⟩, -⟩ := h.1 e (hedges he)
    have hminted := @minted_states _ ctx d₂ batch.states
    rw [hsource] at hid
    rw [hnodes] at hn
    rcases List.mem_append.mp hn with hn | hstate
    · obtain ⟨j, hj, hne, hdrawn⟩ := hothers n hn
      exact hne (hfresh.distinct j (hminted ▸ hj) k (hminted ▸ hk) (hdrawn.symm.trans hid))
    · obtain ⟨state, hmem, rfl⟩ := List.mem_map.mp hstate
      exact hfresh.states k (hminted ▸ hk) state hmem hid.symm
  · intro hsame
    have h := htree (hafter.tree hsame)
    exact ⟨h.closed, h.supervises⟩

end

/-- Draws for running the model. -/
private def draws (n : Nat) : NodeId := .filled (UInt8.ofNat n)

/-- A batch of paths. -/
private def pathsBatch (paths : List String) : ActorBatch :=
  ⟨paths.map .parse, [], [], .beginning, none⟩

private def uuidCtx : ProjectionCtx := ⟨.uuid, .lastWriteWins, .inducedSchema, "sample"⟩

private def draftOf (paths : List String) : Except IriError HierarchicalDraft :=
  @HierarchicalDraft.ofBatch Blake3.beginning draws (fun _ => "") uuidCtx (pathsBatch paths)

private def draftGet (paths : List String) : HierarchicalDraft :=
  match draftOf paths with
  | .ok d => d
  | .error _ => .empty

private theorem draftOf_eq {paths : List String} (h : (draftOf paths).isOk = true) :
    draftOf paths = .ok (draftGet paths) := by
  unfold draftGet
  cases hd : draftOf paths with
  | ok d => rfl
  | error e =>
    rw [hd] at h
    cases h

private theorem project_pathsBatch {paths : List String} (h : (draftOf paths).isOk = true) :
    (@hierarchicalProjection Blake3.beginning draws (fun _ => "") "").project (pathsBatch paths)
    uuidCtx =
      .ok ⟨(draftGet paths).nodes, (draftGet paths).edges, []⟩ := by
  exact (@project_ok_iff Blake3.beginning _ _ _ _ _ _).mpr ⟨_, draftOf_eq h, rfl⟩

/-- Random ids make a tree of two paths that start differently. -/
theorem supervision_closed_apart :
    Closed (draftGet ["/a/b", "/c/d"]).nodes (draftGet ["/a/b", "/c/d"]).edges ∧
      Supervises (draftGet ["/a/b", "/c/d"]).prefixToId
        (visits (visited (pathsBatch ["/a/b", "/c/d"]))) (draftGet ["/a/b", "/c/d"]).edges := by
  have hok : (draftOf ["/a/b", "/c/d"]).isOk = true := by decide +kernel
  have hsegments : (visited (pathsBatch ["/a/b", "/c/d"])).map SupervisionPath.segments =
      [["a", "b"], ["c", "d"]] := by decide +kernel
  refine (@supervision_closed_iff Blake3.beginning draws (fun _ => "") "" uuidCtx
    (pathsBatch ["/a/b", "/c/d"]) _ _ (draftOf_eq hok) (project_pathsBatch hok) ?_ ?_).mpr
    (Or.inr ?_)
  · have hplain : ∀ segments ∈ (visited (pathsBatch ["/a/b", "/c/d"])).map SupervisionPath.segments,
        Plain segments := by
      rw [hsegments]
      simp [Plain]
    exact fun path hpath => hplain _ (List.mem_map_of_mem hpath)
  · exact @Fresh.mk Blake3.beginning _ _ _ _ (by decide +kernel)
      fun _ _ _ hstate => absurd hstate List.not_mem_nil
  · have happart : ((visited (pathsBatch ["/a/b", "/c/d"])).map SupervisionPath.segments).Pairwise
        fun p q => 2 ≤ q.length → p.head? ≠ q.head? := by
      rw [hsegments]
      decide
    exact List.pairwise_map.mp happart

/-- The second of two paths with one supervisor makes an edge from an id without a node. -/
theorem shared_supervisor_not_closed :
    @Fresh Blake3.beginning draws uuidCtx (pathsBatch ["/a/b", "/a/c"])
        (draftGet ["/a/b", "/a/c"]).minted ∧
      (@hierarchicalProjection Blake3.beginning draws (fun _ => "") "").project
        (pathsBatch ["/a/b", "/a/c"]) uuidCtx =
          .ok ⟨(draftGet ["/a/b", "/a/c"]).nodes, (draftGet ["/a/b", "/a/c"]).edges, []⟩ ∧
      ¬Closed (draftGet ["/a/b", "/a/c"]).nodes (draftGet ["/a/b", "/a/c"]).edges := by
  refine ⟨@Fresh.mk Blake3.beginning _ _ _ _ (by decide +kernel)
    fun _ _ _ hstate => absurd hstate List.not_mem_nil, project_pathsBatch (by decide +kernel), ?_⟩
  have hends : (draftGet ["/a/b", "/a/c"]).edges.any (fun e =>
      (draftGet ["/a/b", "/a/c"]).nodes.all fun n => n.id ≠ e.source) = true := by
    decide +kernel
  obtain ⟨e, he, hall⟩ := List.any_eq_true.mp hends
  intro hclosed
  obtain ⟨⟨n, hn, hid⟩, -⟩ := hclosed e he
  exact absurd hid (by simpa using List.all_eq_true.mp hall n hn)

end Supervision

end AtomrOntology
