import AtomrOntology.Actor.Flat

/-!
# Does the flat projection aggregate across batches?

The steps of a pair are collected within one batch, and a commit replaces the property, so
only the last batch that touches a pair counts. The id of its node is made of a joined
text, which different pairs can share.
-/

namespace AtomrOntology

namespace Flat

/-- The pairs that a batch touches. -/
def keysOf (batch : ActorBatch) : List RunKey :=
  batch.paths.filterMap workflowRunKey ++ batch.events.filterMap eventKey ++
    batch.states.map unroutedKey

section

variable (toRfc3339 : DateTime → String)

/-- The steps of a pair in a batch. -/
def stepsOf (batch : ActorBatch) (key : RunKey) : List JsonValue :=
  (batch.events.filter fun e => eventKey e = some key).map (stepOf toRfc3339)

variable {toRfc3339}

/-- Changing a bucket adds its events to those under its key. -/
theorem events_entryOr (m : BTreeMap RunKey FlatBucket) (k a : RunKey)
    {change : FlatBucket → FlatBucket} {es : List JsonValue}
    (h : ∀ b, (change b).events = b.events ++ es) :
    (m.entryOr k .empty change)[a]?.map FlatBucket.events =
      if k = a then some ((m[a]?.map FlatBucket.events).getD [] ++ es)
      else m[a]?.map FlatBucket.events := by
  rw [BTreeMap.entryOr, Std.ExtTreeMap.getElem?_alter]
  simp only [Std.LawfulEqOrd.compare_eq_iff_eq]
  by_cases hk : k = a
  · subst hk
    rw [if_pos rfl, if_pos rfl, Option.map_some, h]
    cases m[k]? <;> rfl
  · rw [if_neg hk, if_neg hk]

/-- A loop over items with a pair each, which appends to the bucket of the pair. -/
theorem events_foldl {ι : Type} (keyOf : ι → Option RunKey) (change : ι → FlatBucket → FlatBucket)
    (es : ι → List JsonValue) (h : ∀ x b, (change x b).events = b.events ++ es x) (xs : List ι)
    (m : BTreeMap RunKey FlatBucket) (a : RunKey) :
    (xs.foldl (fun m x => touch m (keyOf x) (change x)) m)[a]?.map FlatBucket.events =
    if a ∈ xs.filterMap keyOf then
      some ((m[a]?.map FlatBucket.events).getD [] ++ (xs.filter fun x =>
        keyOf x = some a).flatMap es)
    else m[a]?.map FlatBucket.events := by
  have hadds : xs.filterMap (fun x => if keyOf x = some a then some (es x) else none) =
      (xs.filter fun x => keyOf x = some a).map es := by
    induction xs with
    | nil => rfl
    | cons x xs ih => by_cases hx : keyOf x = some a <;> simp [hx, ih]
  have hmem : (xs.filter fun x => keyOf x = some a).map es = [] ↔ a ∉ xs.filterMap keyOf := by
    simp [List.filter_eq_nil_iff]
  rw [foldl_appends (fun m : BTreeMap RunKey FlatBucket => m[a]?.map FlatBucket.events)
    (fun x => if keyOf x = some a then some (es x) else none), hadds]
  · by_cases ha : a ∈ xs.filterMap keyOf
    · rw [if_neg (fun hnil => hmem.mp hnil ha), if_pos ha, List.flatMap_def]
    · rw [if_pos (hmem.mpr ha), if_neg ha]
  · intro m x
    cases hk : keyOf x with
    | none => rfl
    | some k =>
      simp only [touch, Option.some.injEq]
      rw [events_entryOr m k a (h x)]
      by_cases hka : k = a
      · rw [if_pos hka, if_pos hka]
      · rw [if_neg hka, if_neg hka]

/-- The bucket of a pair has its steps; a pair that is not touched has no bucket. -/
theorem events_buckets (batch : ActorBatch) (a : RunKey) :
    (buckets toRfc3339 batch)[a]?.map FlatBucket.events =
      if a ∈ keysOf batch then some (stepsOf toRfc3339 batch a) else none := by
  have hstates := events_foldl (fun s : SerializedState => some (unroutedKey s))
    (fun s b => { b with states := b.states ++ [stateOf s] }) (fun _ => [])
    (fun _ b => (List.append_nil _).symm) batch.states
  have hevents := events_foldl eventKey
    (fun e b => { b with events := b.events ++ [stepOf toRfc3339 e] })
    (fun e => [stepOf toRfc3339 e]) (fun _ _ => rfl) batch.events
  have hpaths := events_foldl workflowRunKey (fun _ b => { b with pathCount := b.pathCount + 1 })
    (fun _ => []) (fun _ b => (List.append_nil _).symm) batch.paths
  unfold buckets
  simp only at hstates hevents hpaths ⊢
  rw [hstates, hevents, hpaths]
  have hsteps : (batch.events.filter fun e => eventKey e = some a).flatMap
      (fun e => [stepOf toRfc3339 e]) = stepsOf toRfc3339 batch a :=
    List.map_eq_flatMap.symm
  have hvoid : ∀ {ι : Type} (xs : List ι), xs.flatMap (fun _ => ([] : List JsonValue)) = [] := by
    intro ι xs
    exact List.flatMap_eq_nil_iff.mpr fun _ _ => rfl
  have hnone : a ∉ batch.events.filterMap eventKey → stepsOf toRfc3339 batch a = [] := by
    intro ha
    rw [stepsOf, List.map_eq_nil_iff, List.filter_eq_nil_iff]
    intro e he hkey
    exact ha (List.mem_filterMap.mpr ⟨e, he, of_decide_eq_true hkey⟩)
  rw [hsteps, List.filterMap_eq_map']
  simp only [keysOf, List.mem_append]
  by_cases hs : a ∈ batch.states.map unroutedKey
  · by_cases he : a ∈ batch.events.filterMap eventKey
    · simp only [hs, he, or_true, ↓reduceIte]
      split <;> simp [hvoid]
    · simp only [hs, he, hnone he, or_true, ↓reduceIte]
      split <;> simp [hvoid]
  · by_cases he : a ∈ batch.events.filterMap eventKey
    · simp only [hs, he, or_true, or_false, ↓reduceIte]
      split <;> simp [hvoid]
    · simp only [hs, he, hnone he, or_false, ↓reduceIte]
      split <;> simp [hvoid]

end

section

variable [Blake3]

/-- The text that the id of the node of a pair is made of. -/
def nodeText (iri : IriMintingStrategy) (key : RunKey) : String :=
  match iri with
  | .pathBased base => trimTrailingSlash base.value ++ (keyPath key).render
  | _ => "flat:" ++ key.1 ++ ":" ++ key.2

/-- The id of the node of a pair. -/
def nodeId (iri : IriMintingStrategy) (key : RunKey) : NodeId :=
  Id.contentAddress (utf8 (nodeText iri key))

/-- The id of a run is that of its text. -/
theorem mint_ok {iri : IriMintingStrategy} {key : RunKey} {id : NodeId} {i : Option Iri}
    (h : mint iri key = .ok (id, i)) : id = nodeId iri key := by
  cases iri with
  | pathBased base =>
    obtain ⟨value, hvalue, hpure⟩ := bind_eq_ok.mp h
    have hid : value = ⟨trimTrailingSlash base.value ++ (keyPath key).render⟩ := by
      unfold Iri.new at hvalue
      split at hvalue
      · cases hvalue
      · split at hvalue
        · cases hvalue
        · exact (Except.ok.inj hvalue).symm
    rw [hid] at hpure
    exact (congrArg Prod.fst (Except.ok.inj hpure)).symm
  | contentAddressed => exact (congrArg Prod.fst (Except.ok.inj h)).symm
  | uuid => exact (congrArg Prod.fst (Except.ok.inj h)).symm

/-- The node of a bucket has the id of the pair and the steps of the bucket. -/
theorem nodeOf_ok {ctx : ProjectionCtx} {key : RunKey} {bucket : FlatBucket} {n : Node}
    (h : nodeOf ctx key bucket = .ok n) :
    n.id = nodeId ctx.iri key ∧ n.properties["steps"]? = some (.json (.arr bucket.events)) := by
  obtain ⟨⟨id, i⟩, hmint, hpure⟩ := bind_eq_ok.mp h
  cases hpure
  refine ⟨mint_ok hmint, ?_⟩
  simp only [Node.withProperty, BTreeMap.get_insert]
  rfl

/-- Every bucket has its node. -/
theorem nodesOf_ok {ctx : ProjectionCtx} {l : List (RunKey × FlatBucket)} {ns : List Node}
    (h : nodesOf ctx l = .ok ns) :
    List.Forall₂ (fun kb n => nodeOf ctx kb.1 kb.2 = .ok n) l ns := by
  induction l generalizing ns with
  | nil =>
    cases h
    exact .nil
  | cons kb rest ih =>
    obtain ⟨n, hn, hrest⟩ := bind_eq_ok.mp h
    obtain ⟨ns', hns, hpure⟩ := bind_eq_ok.mp hrest
    cases hpure
    exact .cons hn (ih hns)

/-- Nodes that carry the steps of their pairs. -/
def Carries (toRfc3339 : DateTime → String) (iri : IriMintingStrategy) (batch : ActorBatch) :
    List RunKey → List Node → Prop :=
  List.Forall₂ fun key n => n.id = nodeId iri key ∧
    n.properties["steps"]? = some (.json (.arr (stepsOf toRfc3339 batch key)))

variable {toRfc3339 : DateTime → String}

omit [Blake3] in
/-- The buckets of a batch are those of its keys. -/
theorem mem_keys_buckets {batch : ActorBatch} {key : RunKey} :
    key ∈ (buckets toRfc3339 batch).keys ↔ key ∈ keysOf batch := by
  have hevents := @events_buckets toRfc3339 batch key
  rw [Std.ExtTreeMap.mem_keys]
  constructor
  · intro h
    by_contra hkey
    rw [if_neg hkey, Std.ExtTreeMap.getElem?_eq_some_getElem h] at hevents
    cases hevents
  · intro h
    rw [if_pos h] at hevents
    obtain ⟨b, hb, -⟩ := Option.map_eq_some_iff.mp hevents
    exact (Std.ExtTreeMap.mem_iff_isSome_getElem?).mpr (by rw [hb]; rfl)

/-- A projected batch has a node for each of its pairs. -/
theorem project_ok {label : String} {batch : ActorBatch} {ctx : ProjectionCtx}
    {delta : OntologyDelta} (h : (flatProjection toRfc3339 label).project batch ctx = .ok delta) :
    Carries toRfc3339 ctx.iri batch (buckets toRfc3339 batch).keys delta.nodes ∧
      delta.edges = [] ∧ delta.axioms = [] := by
  simp only [flatProjection] at h
  cases hnodes : nodesOf ctx (buckets toRfc3339 batch).toList with
  | error e =>
    rw [hnodes] at h
    cases h
  | ok ns =>
    rw [hnodes] at h
    cases h
    refine ⟨?_, rfl, rfl⟩
    rw [← Std.ExtTreeMap.map_fst_toList_eq_keys, Carries, List.forall₂_map_left_iff]
    -- every bucket of the listing is the one of its pair
    have hsteps : ∀ kb ∈ (buckets toRfc3339 batch).toList,
        kb.2.events = stepsOf toRfc3339 batch kb.1 := by
      intro kb hkb
      have hget := Std.ExtTreeMap.mem_toList_iff_getElem?_eq_some.mp hkb
      have hevents := @events_buckets toRfc3339 batch kb.1
      have hkey := mem_keys_buckets.mp (Std.ExtTreeMap.mem_keys.mpr
        (Std.ExtTreeMap.mem_iff_isSome_getElem?.mpr (Option.isSome_of_eq_some hget)))
      rw [hget, if_pos hkey] at hevents
      exact Option.some.inj hevents
    refine ((List.forall₂_and_left _ _).mpr ⟨hsteps, nodesOf_ok hnodes⟩).imp ?_
    intro kb n hn
    obtain ⟨hevents, hnode⟩ := hn
    obtain ⟨hid, hprop⟩ := nodeOf_ok hnode
    exact ⟨hid, hevents ▸ hprop⟩

omit [Blake3] in
/-- Reconciling keeps the id and every property of the incoming node. -/
theorem reconcile_keeps {conflict : ConflictResolution} (hconflict : conflict ≠ .skipExisting)
    {existing : Option Node} {n : Node} (hid : ∀ prev, existing = some prev → prev.id = n.id) :
    ∃ n', conflict.reconcile existing n = some n' ∧ n'.id = n.id ∧
      ∀ (name : String) (v : PropertyValue), n.properties[name]? = some v →
        n'.properties[name]? = some v := by
  cases conflict with
  | skipExisting => exact absurd rfl hconflict
  | lastWriteWins => exact ⟨n, rfl, rfl, fun _ _ h => h⟩
  | merge =>
    cases existing with
    | none => exact ⟨n, rfl, rfl, fun _ _ h => h⟩
    | some prev =>
      refine ⟨_, rfl, hid prev rfl, ?_⟩
      intro name v hv
      have hmem := Std.ExtTreeMap.mem_toList_iff_getElem?_eq_some.mpr hv
      exact Std.ExtTreeMap.getElem?_insertMany_list_of_mem Std.ReflCmp.compare_self
        Std.ExtTreeMap.distinct_keys_toList hmem

/-- Reconciling keeps what the nodes carry. -/
theorem Carries.reconcile {iri : IriMintingStrategy} {batch : ActorBatch} {keys : List RunKey}
    {ns : List Node} (h : Carries toRfc3339 iri batch keys ns) {conflict : ConflictResolution}
    (hconflict : conflict ≠ .skipExisting) {o : Ontology} (hkeyed : o.Keyed) :
    Carries toRfc3339 iri batch keys
      (ns.filterMap fun n => conflict.reconcile o.nodes[n.id]? n) := by
  induction h with
  | nil => exact .nil
  | @cons key n keys ns hn _ ih =>
    obtain ⟨n', hn', hid, hprops⟩ := @reconcile_keeps _ hconflict o.nodes[n.id]? n
      fun prev hprev => hkeyed.nodes n.id prev hprev
    simp only [List.filterMap_cons, hn']
    exact .cons ⟨hid.trans hn.1, hprops _ _ hn.2⟩ ih

/-- What is committed for a batch has a node for each of its pairs. -/
theorem delta_ok {p : Projector} {label : String}
    (hprojection : p.projection = flatProjection toRfc3339 label)
    (hconflict : p.ctx.conflict ≠ .skipExisting) {store : MemStore}
    (hkeyed : store.ontology.Keyed) {batch : ActorBatch} {delta : OntologyDelta}
    (h : p.delta store batch = .ok delta) :
    Carries toRfc3339 p.ctx.iri batch (buckets toRfc3339 batch).keys delta.nodes ∧
      delta.edges = [] ∧ delta.axioms = [] := by
  obtain ⟨raw, hraw, hrest⟩ := bind_eq_ok.mp h
  obtain ⟨-, -, hpure⟩ := bind_eq_ok.mp hrest
  cases hpure
  rw [hprojection] at hraw
  obtain ⟨hcarries, hedges, haxioms⟩ := project_ok hraw
  unfold reconcileDelta
  cases hc : p.ctx.conflict with
  | lastWriteWins => exact ⟨hcarries, hedges, haxioms⟩
  | merge => exact ⟨hcarries.reconcile (by decide) hkeyed, hedges, haxioms⟩
  | skipExisting => exact absurd hc hconflict

/-- The nodes have the ids of their keys. -/
theorem Carries.map_id {iri : IriMintingStrategy} {batch : ActorBatch} {keys : List RunKey}
    {ns : List Node} (h : Carries toRfc3339 iri batch keys ns) :
    ns.map Node.id = keys.map (nodeId iri) := by
  induction h with
  | nil => rfl
  | cons hn _ ih => rw [List.map_cons, List.map_cons, hn.1, ih]

/-- Every key has a node. -/
theorem Carries.exists_node {iri : IriMintingStrategy} {batch : ActorBatch} {keys : List RunKey}
    {ns : List Node} (h : Carries toRfc3339 iri batch keys ns) {key : RunKey} (hkey : key ∈ keys) :
    ∃ n ∈ ns, n.id = nodeId iri key ∧
      n.properties["steps"]? = some (.json (.arr (stepsOf toRfc3339 batch key))) := by
  induction h with
  | nil => cases hkey
  | @cons key' n keys ns hn _ ih =>
    rcases List.mem_cons.mp hkey with rfl | hmem
    · exact ⟨n, List.mem_cons_self, hn⟩
    · obtain ⟨n', hn', hspec⟩ := ih hmem
      exact ⟨n', List.mem_cons_of_mem n hn', hspec⟩

/-- The steps that are stored under an id. -/
def stepsAt (store : MemStore) (id : NodeId) : Option PropertyValue :=
  store.ontology.nodes[id]?.bind fun n => n.properties["steps"]?

/-- No two pairs of a list share a node. -/
def Apart (iri : IriMintingStrategy) (keys : List RunKey) : Prop :=
  ∀ k ∈ keys, ∀ k' ∈ keys, k ≠ k' → nodeId iri k ≠ nodeId iri k'

/-- A commit replaces the steps of the pairs of its batch and leaves those of others. -/
theorem stepsAt_commit {p : Projector} {label : String}
    (hprojection : p.projection = flatProjection toRfc3339 label)
    (hconflict : p.ctx.conflict ≠ .skipExisting) {store : MemStore}
    (hkeyed : store.ontology.Keyed) {batch : ActorBatch} {delta : OntologyDelta}
    (h : p.delta store batch = .ok delta) {all : List RunKey} (hapart : Apart p.ctx.iri all)
    (hall : keysOf batch ⊆ all) {key : RunKey} (hkey : key ∈ all) (activity : Activity) :
    stepsAt (store.commitWithProvenance delta activity) (nodeId p.ctx.iri key) =
      if key ∈ keysOf batch then some (.json (.arr (stepsOf toRfc3339 batch key)))
      else stepsAt store (nodeId p.ctx.iri key) := by
  obtain ⟨hcarries, -, -⟩ := delta_ok hprojection hconflict hkeyed h
  have hids := hcarries.map_id
  have hmem : ∀ {k}, k ∈ (buckets toRfc3339 batch).keys → k ∈ all :=
    fun hk => hall (mem_keys_buckets.mp hk)
  unfold stepsAt MemStore.commitWithProvenance
  rw [Ontology.applyDelta_nodes]
  by_cases hb : key ∈ keysOf batch
  · have hnodup : (delta.nodes.map Node.id).Nodup := by
      rw [hids]
      refine Std.ExtTreeMap.nodup_keys.map_on ?_
      intro k hk k' hk' heq
      by_contra hne
      exact hapart k (hmem hk) k' (hmem hk') hne heq
    obtain ⟨n, hn, hid, hsteps⟩ := hcarries.exists_node (mem_keys_buckets.mpr hb)
    rw [if_pos hb, ← hid, BTreeMap.get_insertAll_of_mem _ _ hnodup hn]
    exact hsteps
  · have hfresh : ∀ n ∈ delta.nodes, n.id ≠ nodeId p.ctx.iri key := by
      intro n hn heq
      have hid : nodeId p.ctx.iri key ∈ (buckets toRfc3339 batch).keys.map (nodeId p.ctx.iri) := by
        rw [← hids, ← heq]
        exact List.mem_map_of_mem hn
      obtain ⟨k, hk, hkid⟩ := List.mem_map.mp hid
      have hne : k ≠ key := by
        intro hkk
        exact hb (mem_keys_buckets.mp (hkk ▸ hk))
      exact hapart k (hmem hk) key hkey hne hkid
    rw [if_neg hb, BTreeMap.get_insertAll_of_not_mem _ _ hfresh]

/-- The steps of the last batch that touches a pair. -/
def lastSteps (toRfc3339 : DateTime → String) (key : RunKey) :
    List ActorBatch → Option PropertyValue → Option PropertyValue
  | [], before => before
  | batch :: rest, before => lastSteps toRfc3339 key rest
      (if key ∈ keysOf batch then some (.json (.arr (stepsOf toRfc3339 batch key))) else before)

omit [Blake3] in
/-- An empty batch has no keys. -/
theorem keysOf_of_isEmpty {batch : ActorBatch} (h : batch.isEmpty = true) : keysOf batch = [] := by
  simp only [ActorBatch.isEmpty, Bool.and_eq_true, List.isEmpty_iff] at h
  simp [keysOf, h.1.1, h.1.2, h.2]

/-- A completed run leaves the steps of the last batch that touched the pair. -/
theorem stepsAt_run {p : Projector} {label : String}
    (hprojection : p.projection = flatProjection toRfc3339 label)
    (hconflict : p.ctx.conflict ≠ .skipExisting) {all : List RunKey}
    (hapart : Apart p.ctx.iri all) {key : RunKey} (hkey : key ∈ all)
    {batches : List (ActorBatch × Stamp)} (hall : ∀ b ∈ batches, keysOf b.1 ⊆ all)
    {store : MemStore} (hkeyed : store.ontology.Keyed) {report report' : ProjectorReport}
    {store' : MemStore} (hrun : p.run store report batches = (.ok report', store')) :
    stepsAt store' (nodeId p.ctx.iri key) = lastSteps toRfc3339 key (batches.map Prod.fst)
      (stepsAt store (nodeId p.ctx.iri key)) := by
  induction batches generalizing store report with
  | nil =>
    cases hrun
    rfl
  | cons bs rest ih =>
    obtain ⟨batch, stamp⟩ := bs
    have hrest : ∀ b ∈ rest, keysOf b.1 ⊆ all := fun b hb => hall b (List.mem_cons_of_mem _ hb)
    have hbatch : keysOf batch ⊆ all := hall (batch, stamp) List.mem_cons_self
    rw [List.map_cons, lastSteps]
    rw [Projector.run] at hrun
    by_cases hempty : batch.isEmpty = true
    · rw [if_pos hempty] at hrun
      rw [keysOf_of_isEmpty hempty, if_neg List.not_mem_nil]
      exact ih hrest hkeyed hrun
    · rw [if_neg hempty] at hrun
      cases hdelta : p.delta store batch with
      | error e =>
        rw [hdelta] at hrun
        cases hrun
      | ok delta =>
        rw [hdelta] at hrun
        simp only at hrun
        have hstep := stepsAt_commit hprojection hconflict hkeyed hdelta hapart hbatch hkey
        by_cases hnil : (delta.nodes.isEmpty && delta.edges.isEmpty && delta.axioms.isEmpty) = true
        · rw [if_pos hnil] at hrun
          -- an empty delta is made of a batch that touches no pair
          have hkeys : key ∉ keysOf batch := by
            intro hmem
            obtain ⟨n, hn, -⟩ := (delta_ok hprojection hconflict hkeyed hdelta).1.exists_node
              (mem_keys_buckets.mpr hmem)
            simp only [Bool.and_eq_true, List.isEmpty_iff] at hnil
            rw [hnil.1.1] at hn
            cases hn
          rw [if_neg hkeys]
          exact ih hrest hkeyed hrun
        · rw [if_neg hnil] at hrun
          rw [← hstep (p.activity batch stamp)]
          exact ih hrest (hkeyed.applyDelta delta _) hrun

omit [Blake3] in
/-- Batches that do not touch a key leave its steps. -/
theorem lastSteps_of_untouched {key : RunKey} {post : List ActorBatch}
    (h : ∀ b ∈ post, key ∉ keysOf b) (before : Option PropertyValue) :
    lastSteps toRfc3339 key post before = before := by
  induction post with
  | nil => rfl
  | cons b post ih =>
    rw [lastSteps, if_neg (h b List.mem_cons_self)]
    exact ih fun b' hb' => h b' (List.mem_cons_of_mem b hb')

omit [Blake3] in
/-- Only the last batch that touches a pair counts. -/
theorem lastSteps_append {key : RunKey} (pre : List ActorBatch) {b : ActorBatch}
    {post : List ActorBatch} (hb : key ∈ keysOf b) (hpost : ∀ b' ∈ post, key ∉ keysOf b')
    (before : Option PropertyValue) : lastSteps toRfc3339 key (pre ++ b :: post) before =
      some (.json (.arr (stepsOf toRfc3339 b key))) := by
  induction pre generalizing before with
  | nil => rw [List.nil_append, lastSteps, if_pos hb, lastSteps_of_untouched hpost]
  | cons b' pre ih => exact ih _

omit [Blake3] in
/-- A key that is touched is touched by a last batch. -/
theorem exists_last_touch {key : RunKey} {batches : List ActorBatch}
    (h : ∃ b ∈ batches, key ∈ keysOf b) : ∃ pre b post, batches = pre ++ b :: post ∧
      key ∈ keysOf b ∧ ∀ c ∈ post, key ∉ keysOf c := by
  induction batches with
  | nil => simp at h
  | cons c rest ih =>
    by_cases hlater : ∃ d ∈ rest, key ∈ keysOf d
    · obtain ⟨pre, b, post, rfl, hb, hpost⟩ := ih hlater
      exact ⟨c :: pre, b, post, rfl, hb, hpost⟩
    · obtain ⟨b, hb, hkey⟩ := h
      rcases List.mem_cons.mp hb with rfl | hb
      · exact ⟨[], b, rest, rfl, hkey, fun d hd hdkey => hlater ⟨d, hd, hdkey⟩⟩
      · exact absurd ⟨b, hb, hkey⟩ hlater

/-- The node of each pair has every event of the pair as a step, and pairs have nodes of
their own. -/
structure Aggregates (toRfc3339 : DateTime → String) (iri : IriMintingStrategy)
    (batches : List ActorBatch) (store : MemStore) : Prop where
  complete : ∀ b ∈ batches, ∀ e ∈ b.events, ∀ key, eventKey e = some key →
    ∃ steps, stepsAt store (nodeId iri key) = some (.json (.arr steps)) ∧
      stepOf toRfc3339 e ∈ steps
  apart : Apart iri (batches.flatMap keysOf)

/-- The last batch that touches a pair has the steps of every batch before it. -/
def LastRepeats (toRfc3339 : DateTime → String) (batches : List ActorBatch) : Prop :=
  ∀ pre b post key, batches = pre ++ b :: post → key ∈ keysOf b →
    (∀ b' ∈ post, key ∉ keysOf b') →
      ∀ b' ∈ pre, stepsOf toRfc3339 b' key ⊆ stepsOf toRfc3339 b key

/-- What stands between workflow and run in the text of an id. -/
def separator : IriMintingStrategy → String
  | .pathBased _ => "/"
  | _ => ":"

/-- Different pairs are different when their parts are joined. -/
def JoinedApart (iri : IriMintingStrategy) (batches : List ActorBatch) : Prop :=
  ∀ k ∈ batches.flatMap keysOf, ∀ k' ∈ batches.flatMap keysOf, k ≠ k' →
    k.1 ++ separator iri ++ k.2 ≠ k'.1 ++ separator iri ++ k'.2

/-- The hash does not collide on the texts of the pairs. -/
def NoCollision (iri : IriMintingStrategy) (batches : List ActorBatch) : Prop :=
  ∀ k ∈ batches.flatMap keysOf, ∀ k' ∈ batches.flatMap keysOf,
    nodeId iri k = nodeId iri k' → nodeText iri k = nodeText iri k'

omit [Blake3] in
/-- The texts of runs are the same if their names join to the same. -/
theorem nodeText_inj {iri : IriMintingStrategy} {k k' : RunKey} :
    nodeText iri k = nodeText iri k' ↔
      k.1 ++ separator iri ++ k.2 = k'.1 ++ separator iri ++ k'.2 := by
  have hpath : ∀ k : RunKey, (keyPath k).render = "/" ++ (k.1 ++ "/" ++ k.2) := by
    intro k
    have hchars : "/" ++ k.1 ++ "/" ++ k.2 = .ofList ('/' :: (k.1 ++ "/" ++ k.2).toList) := by
      apply String.toList_inj.mp
      simp
    rw [keyPath, hchars, SupervisionPath.render_parse]
    apply String.toList_inj.mp
    simp
  cases iri with
  | pathBased base =>
    simp only [nodeText, separator, hpath, ← String.toList_inj, String.toList_append]
    simp
  | contentAddressed =>
    simp only [nodeText, separator, ← String.toList_inj, String.toList_append]
    simp
  | uuid =>
    simp only [nodeText, separator, ← String.toList_inj, String.toList_append]
    simp

/-- Nodes are apart if the joined names are, since the hash does not collide. -/
theorem apart_iff_joinedApart {iri : IriMintingStrategy} {batches : List ActorBatch}
    (h : NoCollision iri batches) :
    Apart iri (batches.flatMap keysOf) ↔ JoinedApart iri batches := by
  constructor
  · intro hapart k hk k' hk' hne heq
    exact hapart k hk k' hk' hne (congrArg (fun t => Id.contentAddress (utf8 t))
      (nodeText_inj.mpr heq))
  · intro hjoined k hk k' hk' hne heq
    exact hjoined k hk k' hk' hne (nodeText_inj.mp (h k hk k' hk' heq))

variable {label : String} {ctx : ProjectionCtx} {agent : AgentRef} {store store' : MemStore}
  {batches : List (ActorBatch × Stamp)} {report report' : ProjectorReport}

/-- The steps of a pair that some batch touches, after a completed run. -/
theorem exists_last_steps (hconflict : ctx.conflict ≠ .skipExisting)
    (hkeyed : store.ontology.Keyed)
    (hrun : Projector.run ⟨flatProjection toRfc3339 label, ctx, agent⟩ store report batches =
      (.ok report', store'))
    (hapart : Apart ctx.iri ((batches.map Prod.fst).flatMap keysOf)) {pre post : List ActorBatch}
    {b : ActorBatch} {key : RunKey} (hbatches : batches.map Prod.fst = pre ++ b :: post)
    (hb : key ∈ keysOf b) (hpost : ∀ b' ∈ post, key ∉ keysOf b') :
    stepsAt store' (nodeId ctx.iri key) = some (.json (.arr (stepsOf toRfc3339 b key))) := by
  have hkey : key ∈ (batches.map Prod.fst).flatMap keysOf := by
    rw [hbatches]
    exact List.mem_flatMap.mpr ⟨b, by simp, hb⟩
  have hall : ∀ bs ∈ batches, keysOf bs.1 ⊆ (batches.map Prod.fst).flatMap keysOf := by
    intro bs hbs k hk
    exact List.mem_flatMap.mpr ⟨bs.1, List.mem_map_of_mem hbs, hk⟩
  rw [stepsAt_run rfl hconflict hapart hkey hall hkeyed hrun, hbatches,
    lastSteps_append pre hb hpost]

omit [Blake3] in
/-- The key of an event is one of its batch. -/
theorem mem_keysOf_of_event {b : ActorBatch} {e : JournalEvent} {key : RunKey} (he : e ∈ b.events)
    (hkey : eventKey e = some key) : key ∈ keysOf b :=
  List.mem_append_left _ (List.mem_append_right _ (List.mem_filterMap.mpr ⟨e, he, hkey⟩))

omit [Blake3] in
/-- The steps of a run are those of its events. -/
theorem mem_stepsOf {b : ActorBatch} {key : RunKey} {s : JsonValue} :
    s ∈ stepsOf toRfc3339 b key ↔ ∃ e ∈ b.events, eventKey e = some key ∧
    stepOf toRfc3339 e = s := by
  simp only [stepsOf, List.mem_map, List.mem_filter, decide_eq_true_eq, and_assoc]

/-- Where nothing is lost, the last batch repeats the steps of the earlier ones. -/
theorem Aggregates.lastRepeats (hconflict : ctx.conflict ≠ .skipExisting)
    (hkeyed : store.ontology.Keyed)
    (hrun : Projector.run ⟨flatProjection toRfc3339 label, ctx, agent⟩ store report batches =
      (.ok report', store'))
    (h : Aggregates toRfc3339 ctx.iri (batches.map Prod.fst) store') :
    LastRepeats toRfc3339 (batches.map Prod.fst) := by
  intro pre b post key hbatches hb hpost b' hb' s hs
  obtain ⟨e, he, hkey, rfl⟩ := mem_stepsOf.mp hs
  have hmem : b' ∈ batches.map Prod.fst := by
    rw [hbatches]
    exact List.mem_append_left _ hb'
  obtain ⟨steps, hsteps, hstep⟩ := h.complete b' hmem e he key hkey
  rw [exists_last_steps hconflict hkeyed hrun h.apart hbatches hb hpost] at hsteps
  rw [JsonValue.arr_injective (PropertyValue.json.inj (Option.some.inj hsteps))]
  exact hstep

/-- Where the last batch repeats the earlier ones, no step is lost. -/
theorem LastRepeats.complete (hconflict : ctx.conflict ≠ .skipExisting)
    (hkeyed : store.ontology.Keyed)
    (hrun : Projector.run ⟨flatProjection toRfc3339 label, ctx, agent⟩ store report batches =
      (.ok report', store'))
    (hapart : Apart ctx.iri ((batches.map Prod.fst).flatMap keysOf))
    (h : LastRepeats toRfc3339 (batches.map Prod.fst)) {b : ActorBatch}
    (hb : b ∈ batches.map Prod.fst) {e : JournalEvent} (he : e ∈ b.events) {key : RunKey}
    (hkey : eventKey e = some key) :
    ∃ steps, stepsAt store' (nodeId ctx.iri key) = some (.json (.arr steps)) ∧
      stepOf toRfc3339 e ∈ steps := by
  have hbkey := mem_keysOf_of_event he hkey
  have hstep : stepOf toRfc3339 e ∈ stepsOf toRfc3339 b key := mem_stepsOf.mpr ⟨e, he, hkey, rfl⟩
  obtain ⟨pre, last, post, hbatches, hlast, hpost⟩ := exists_last_touch ⟨b, hb, hbkey⟩
  refine ⟨_, exists_last_steps hconflict hkeyed hrun hapart hbatches hlast hpost, ?_⟩
  rw [hbatches] at hb
  rcases List.mem_append.mp hb with hpre | hb
  · exact h pre last post key hbatches hlast hpost b hpre hstep
  · rcases List.mem_cons.mp hb with rfl | hb
    · exact hstep
    · exact absurd hbkey (hpost b hb)

/-- A completed run of the flat projection aggregates without loss exactly when the last
batch that touches a pair repeats the steps of the earlier ones, and no two pairs join to
one text. -/
theorem aggregates_iff (toRfc3339 : DateTime → String) (label : String) (ctx : ProjectionCtx)
    (agent : AgentRef) (hconflict : ctx.conflict ≠ .skipExisting) (store store' : MemStore)
    (hkeyed : store.ontology.Keyed) (batches : List (ActorBatch × Stamp))
    (hblake : NoCollision ctx.iri (batches.map Prod.fst)) (report report' : ProjectorReport)
    (hrun : Projector.run ⟨flatProjection toRfc3339 label, ctx, agent⟩ store report batches =
      (.ok report', store')) :
    Aggregates toRfc3339 ctx.iri (batches.map Prod.fst) store' ↔
      LastRepeats toRfc3339 (batches.map Prod.fst) ∧
      JoinedApart ctx.iri (batches.map Prod.fst) := by
  have hapart := apart_iff_joinedApart hblake
  constructor
  · intro h
    exact ⟨h.lastRepeats hconflict hkeyed hrun, hapart.mp h.apart⟩
  · intro h
    exact ⟨fun b hb e he key hkey => h.1.complete hconflict hkeyed hrun (hapart.mpr h.2) hb he hkey,
      hapart.mpr h.2⟩

end

/-- A batch with an event for each of some paths. -/
def eventBatch (paths : List String) : ActorBatch :=
  ⟨[], paths.map fun path => { JournalEvent.new (.at 1) ⟨"a"⟩ .created .epoch with
    path := some (.parse path) }, [], .at 1, none⟩

/-- A batch with nothing but a path. -/
def pathBatch (path : String) : ActorBatch := ⟨[.parse path], [], [], .at 1, none⟩

/-- The projection context of the samples. -/
def sampleCtx (conflict : ConflictResolution) : ProjectionCtx :=
  ⟨.contentAddressed, conflict, .inducedSchema, "sample"⟩

/-- A run of the samples over an empty store. -/
def sampleRun (conflict : ConflictResolution) (batches : List ActorBatch) :
    Except ProjectionError ProjectorReport × MemStore :=
  @Projector.run ⟨@flatProjection Blake3.beginning (fun _ => "") "", sampleCtx conflict,
    .software "agent" "agent"⟩ .empty ⟨0, 0, 0, 0⟩ (batches.map fun b =>
      (b, ⟨.filled 1, .epoch, .epoch⟩))

private theorem sampleRun_event_path :
    (sampleRun .merge [eventBatch ["/workflow/w/run/r"], pathBatch "/workflow/w/run/r"]).1 =
      .ok ⟨2, 2, 0, 2⟩ ∧
    (sampleRun .lastWriteWins [eventBatch ["/workflow/w/run/r"], pathBatch "/workflow/w/run/r"]).1 =
      .ok ⟨2, 2, 0, 2⟩ := by
  constructor
  · decide +kernel
  · decide +kernel

/-- Events of two runs, and one of them again. -/
private def repeatingBatches : List ActorBatch :=
  [eventBatch ["/workflow/w/run/r", "/workflow/w/run/s"], eventBatch ["/workflow/w/run/r"]]

private theorem lastRepeats_repeatingBatches : LastRepeats (fun _ => "") repeatingBatches := by
  intro pre b post key hbatches hkey _ b' hb'
  cases pre with
  | nil => cases hb'
  | cons c pre =>
    obtain ⟨rfl, heq⟩ := List.cons.inj hbatches
    have hpre : pre = [] := by
      have hlen := congrArg List.length heq
      simp only [List.append_eq, List.length_cons, List.length_append, List.length_nil] at hlen
      exact List.eq_nil_of_length_eq_zero (by omega)
    subst hpre
    obtain ⟨rfl, -⟩ := List.cons.inj heq
    obtain rfl := List.mem_singleton.mp hb'
    have hkeys : keysOf (eventBatch ["/workflow/w/run/r"]) = [("w", "r")] := by decide +kernel
    obtain rfl := List.mem_singleton.mp (hkeys ▸ hkey)
    exact List.Subset.refl _

/-- The events of two runs are steps of their nodes, also after a batch that repeats one of them. -/
theorem aggregates_repeated_event :
    @Aggregates Blake3.beginning (fun _ => "") .contentAddressed repeatingBatches
      (sampleRun .merge repeatingBatches).2 := by
  have hkeys : ∀ k ∈ repeatingBatches.flatMap keysOf, k = ("w", "r") ∨ k = ("w", "s") := by
    decide +kernel
  have hblake : @NoCollision Blake3.beginning .contentAddressed repeatingBatches := by
    intro k hk k' hk'
    rcases hkeys k hk with rfl | rfl <;> rcases hkeys k' hk' with rfl | rfl <;> decide +kernel
  have hrun : (sampleRun .merge repeatingBatches).1 = .ok ⟨2, 3, 0, 2⟩ := by decide +kernel
  apply (@aggregates_iff Blake3.beginning (fun _ => "") "" (sampleCtx .merge)
    (.software "agent" "agent")
    (by decide) .empty _ Ontology.Keyed.empty
    (repeatingBatches.map fun b => (b, ⟨.filled 1, .epoch, .epoch⟩)) hblake ⟨0, 0, 0, 0⟩
    ⟨2, 3, 0, 2⟩ (Prod.ext hrun rfl)).mpr
  refine ⟨lastRepeats_repeatingBatches, fun k hk k' hk' => ?_⟩
  rcases hkeys k hk with rfl | rfl <;> rcases hkeys k' hk' with rfl | rfl <;> decide +kernel

private theorem not_aggregates_of_path {conflict : ConflictResolution} {report : ProjectorReport}
    (hconflict : conflict ≠ .skipExisting)
    (hrun : (sampleRun conflict [eventBatch ["/workflow/w/run/r"],
      pathBatch "/workflow/w/run/r"]).1 = .ok report) :
    ¬ @Aggregates Blake3.beginning (fun _ => "") .contentAddressed
      [eventBatch ["/workflow/w/run/r"], pathBatch "/workflow/w/run/r"]
      (sampleRun conflict [eventBatch ["/workflow/w/run/r"], pathBatch "/workflow/w/run/r"]).2 := by
  intro h
  have hlast := @Aggregates.lastRepeats Blake3.beginning (fun _ => "") "" (sampleCtx conflict)
    (.software "agent" "agent") .empty _ ([eventBatch ["/workflow/w/run/r"],
      pathBatch "/workflow/w/run/r"].map fun b => (b, ⟨.filled 1, .epoch, .epoch⟩))
    ⟨0, 0, 0, 0⟩ report hconflict Ontology.Keyed.empty (Prod.ext hrun rfl) h
  have hsub := hlast [eventBatch ["/workflow/w/run/r"]] (pathBatch "/workflow/w/run/r") []
    ("w", "r") rfl (by decide +kernel) (fun _ hb => absurd hb List.not_mem_nil) _
    List.mem_cons_self
  have hsteps :
    (stepsOf (fun _ => "") (eventBatch ["/workflow/w/run/r"]) ("w", "r")).length = 1 := by
    decide +kernel
  have hnil : stepsOf (fun _ => "") (pathBatch "/workflow/w/run/r") ("w", "r") = [] := rfl
  rw [hnil] at hsub
  rw [List.subset_nil.mp hsub] at hsteps
  cases hsteps

/-- A batch with nothing but the path of a run erases the steps of the run, and two runs
whose names join to one text share a node. -/
theorem steps_are_erased :
    ¬ @Aggregates Blake3.beginning (fun _ => "") .contentAddressed
      [eventBatch ["/workflow/w/run/r"], pathBatch "/workflow/w/run/r"]
      (sampleRun .merge [eventBatch ["/workflow/w/run/r"], pathBatch "/workflow/w/run/r"]).2 ∧
    ¬ @Aggregates Blake3.beginning (fun _ => "") .contentAddressed
      [eventBatch ["/workflow/w/run/r"], pathBatch "/workflow/w/run/r"]
      (sampleRun .lastWriteWins [eventBatch ["/workflow/w/run/r"],
        pathBatch "/workflow/w/run/r"]).2 ∧
    ¬ @Aggregates Blake3.beginning (fun _ => "") .contentAddressed
      [eventBatch ["/workflow/a:b/run/c", "/workflow/a/run/b:c"]]
      (sampleRun .merge [eventBatch ["/workflow/a:b/run/c", "/workflow/a/run/b:c"]]).2 := by
  refine ⟨not_aggregates_of_path (by decide) sampleRun_event_path.1,
    not_aggregates_of_path (by decide) sampleRun_event_path.2, ?_⟩
  intro h
  apply @Aggregates.apart Blake3.beginning _ _ _ _ h ("a:b", "c") (by decide +kernel) ("a", "b:c")
    (by decide +kernel) (by decide)
  exact congrArg (fun t => @Id.contentAddress Blake3.beginning .node (utf8 t)) (by decide)

end Flat

end AtomrOntology
