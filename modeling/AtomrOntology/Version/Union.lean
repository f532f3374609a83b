import AtomrOntology.Version.Store

/-!
# Union merges

The union of two snapshots is one left-biased union in each of the five maps. It keeps every
key of both sides, and an edge finds its endpoints in the merged nodes if it found them on
the side it comes from.
-/

namespace AtomrOntology

section

variable {κ ν : Type} [Ord κ] [Std.TransOrd κ]

/-- All keys of both sides, with the first side's value where it has one. -/
structure BTreeMap.LeftUnion (ours theirs merged : BTreeMap κ ν) : Prop where
  keys : ∀ k, k ∈ merged ↔ k ∈ ours ∨ k ∈ theirs
  kept : ∀ (k : κ) (v : ν), ours[k]? = some v → merged[k]? = some v
  added : ∀ k : κ, k ∉ ours → merged[k]? = theirs[k]?

variable [Std.LawfulEqOrd κ]

private theorem get_insertIfNew [DecidableEq κ] (m : BTreeMap κ ν) (k a : κ) (v : ν) :
    (m.insertIfNew k v)[a]? = m[a]?.or (if k = a then some v else none) := by
  rw [Std.ExtTreeMap.getElem?_insertIfNew]
  by_cases hk : k = a
  · subst hk
    by_cases hm : k ∈ m
    · rw [if_neg (by simp [hm]), Std.ExtTreeMap.getElem?_eq_some_getElem hm]
      rfl
    · rw [if_pos ⟨Std.ReflCmp.compare_self, hm⟩, if_pos rfl, Std.ExtTreeMap.getElem?_eq_none hm]
      rfl
  · rw [if_neg (by simp [hk]), if_neg hk, Option.or_none]

private theorem get_foldl_insertIfNew (m : BTreeMap κ ν) (kvs : List (κ × ν)) (a : κ) (v : ν)
    (hd : (kvs.map Prod.fst).Nodup) :
    (kvs.foldl (fun m kv => m.insertIfNew kv.1 kv.2) m)[a]? = some v ↔
      m[a]? = some v ∨ m[a]? = none ∧ (a, v) ∈ kvs := by
  classical
  induction kvs generalizing m with
  | nil => simp
  | cons kv kvs ih =>
    obtain ⟨k, w⟩ := kv
    obtain ⟨hk, hd⟩ := List.nodup_cons.mp hd
    rw [List.foldl_cons, ih _ hd, get_insertIfNew]
    by_cases hka : k = a
    · subst hka
      have hnot : (k, v) ∉ kvs := fun h => hk (List.mem_map.mpr ⟨_, h, rfl⟩)
      cases m[k]? <;> simp [hnot, eq_comm]
    · have hne : (a, v) ≠ (k, w) := fun h => hka (Prod.mk.inj h).1.symm
      simp [hka, hne]

/-- Looking up a key of the union. -/
theorem get_unionOurs (ours theirs : BTreeMap κ ν) (k : κ) :
    (unionOurs ours theirs)[k]? = ours[k]?.or theirs[k]? := by
  apply Option.ext
  intro v
  have hd : (theirs.toList.map Prod.fst).Nodup := by
    rw [Std.ExtTreeMap.map_fst_toList_eq_keys]
    exact Std.ExtTreeMap.nodup_keys
  rw [unionOurs, get_foldl_insertIfNew _ _ _ _ hd, Std.ExtTreeMap.mem_toList_iff_getElem?_eq_some,
    Option.or_eq_some_iff]

/-- Ours wins where both have an entry. -/
theorem leftUnion_unionOurs (ours theirs : BTreeMap κ ν) :
    BTreeMap.LeftUnion ours theirs (unionOurs ours theirs) where
  keys k := by
    simp only [Std.ExtTreeMap.mem_iff_isSome_getElem?, get_unionOurs, Option.isSome_or,
      Bool.or_eq_true]
  kept k v hv := by
    rw [get_unionOurs, hv, Option.some_or]
  added k hk := by
    rw [get_unionOurs, Std.ExtTreeMap.getElem?_eq_none hk, Option.none_or]

/-- Uniting a map with itself changes nothing. -/
theorem unionOurs_self (m : BTreeMap κ ν) : unionOurs m m = m := by
  apply Std.ExtTreeMap.ext_getElem?
  intro k
  rw [get_unionOurs, Option.or_self]

/-- Three maps can be united in either order of steps. -/
theorem unionOurs_assoc (a b c : BTreeMap κ ν) :
    unionOurs (unionOurs a b) c = unionOurs a (unionOurs b c) := by
  apply Std.ExtTreeMap.ext_getElem?
  intro k
  simp only [get_unionOurs, Option.or_assoc]

/-- Every entry comes from one side. -/
theorem get_of_get_unionOurs {ours theirs : BTreeMap κ ν} {k : κ} {v : ν}
    (h : (unionOurs ours theirs)[k]? = some v) : ours[k]? = some v ∨ theirs[k]? = some v := by
  rw [get_unionOurs, Option.or_eq_some_iff] at h
  rcases h with h | ⟨-, h⟩
  · exact Or.inl h
  · exact Or.inr h

/-- Entries stay under their own keys. -/
theorem BTreeMap.KeyedBy.unionOurs {key : ν → κ} {ours theirs : BTreeMap κ ν} (h : ours.KeyedBy key)
    (h' : theirs.KeyedBy key) : (unionOurs ours theirs).KeyedBy key := by
  intro k v hv
  rcases get_of_get_unionOurs hv with hv | hv
  · exact h k v hv
  · exact h' k v hv

end

/-- Every entry is stored under its own id or name, and edges join stored nodes. -/
structure Ontology.Sound (o : Ontology) : Prop where
  keyed : o.Keyed
  nodeTypes : o.schema.nodeTypes.KeyedBy NodeType.name
  edgeTypes : o.schema.edgeTypes.KeyedBy EdgeType.name
  endpoints : ∀ (id : EdgeId) (e : Edge), o.edges[id]? = some e →
    e.source ∈ o.nodes ∧ e.target ∈ o.nodes

/-- The empty ontology is sound. -/
theorem Ontology.Sound.empty : Sound .empty :=
  ⟨.empty, .empty _, .empty _, fun id e he => by simp [Ontology.empty] at he⟩

/-- A further node keeps an ontology sound. -/
theorem Ontology.Sound.upsertNode {o : Ontology} (h : o.Sound) (n : Node) :
    (o.upsertNode n).Sound where
  keyed := h.keyed.upsertNode n
  nodeTypes := h.nodeTypes
  edgeTypes := h.edgeTypes
  endpoints id e he := by
    obtain ⟨hs, ht⟩ := h.endpoints id e he
    exact ⟨BTreeMap.mem_insert.mpr (Or.inr hs), BTreeMap.mem_insert.mpr (Or.inr ht)⟩

/-- An edge between stored nodes can be added. -/
theorem Ontology.Sound.upsertEdge {o : Ontology} (h : o.Sound) {e : Edge} (hs : e.source ∈ o.nodes)
    (ht : e.target ∈ o.nodes) : (o.upsertEdge e).Sound where
  keyed := h.keyed.upsertEdge e
  nodeTypes := h.nodeTypes
  edgeTypes := h.edgeTypes
  endpoints id d hd := by
    simp only [Ontology.upsertEdge, BTreeMap.get_insert] at hd
    by_cases hid : e.id = id
    · rw [if_pos hid] at hd
      obtain rfl := Option.some.inj hd
      exact ⟨hs, ht⟩
    · rw [if_neg hid] at hd
      exact h.endpoints id d hd

/-- Each of the five maps of a snapshot is the left-biased union of the two sides' maps. -/
structure Ontology.LeftUnion (ours theirs merged : Ontology) : Prop where
  nodes : BTreeMap.LeftUnion ours.nodes theirs.nodes merged.nodes
  edges : BTreeMap.LeftUnion ours.edges theirs.edges merged.edges
  axioms : BTreeMap.LeftUnion ours.axioms theirs.axioms merged.axioms
  nodeTypes : BTreeMap.LeftUnion ours.schema.nodeTypes theirs.schema.nodeTypes
    merged.schema.nodeTypes
  edgeTypes : BTreeMap.LeftUnion ours.schema.edgeTypes theirs.schema.edgeTypes
    merged.schema.edgeTypes

/-- A merge unites all that snapshots hold. -/
theorem leftUnion_mergeSnapshots (ours theirs : Ontology) :
    ours.LeftUnion theirs (mergeSnapshots ours theirs .union) :=
  ⟨leftUnion_unionOurs _ _, leftUnion_unionOurs _ _, leftUnion_unionOurs _ _,
    leftUnion_unionOurs _ _, leftUnion_unionOurs _ _⟩

/-- Merging a snapshot with itself changes nothing. -/
theorem mergeSnapshots_self (o : Ontology) : mergeSnapshots o o .union = o := by
  simp only [mergeSnapshots, unionOurs_self]

/-- Three snapshots can be merged in either order of steps. -/
theorem mergeSnapshots_assoc (a b c : Ontology) :
    mergeSnapshots (mergeSnapshots a b .union) c .union =
      mergeSnapshots a (mergeSnapshots b c .union) .union := by
  simp only [mergeSnapshots, unionOurs_assoc]

/-- The endpoints of an edge are among the merged nodes, whichever side it comes from. -/
theorem Ontology.Sound.merge {ours theirs : Ontology} (h : ours.Sound) (h' : theirs.Sound) :
    (mergeSnapshots ours theirs .union).Sound where
  keyed := ⟨h.keyed.nodes.unionOurs h'.keyed.nodes, h.keyed.edges.unionOurs h'.keyed.edges,
    h.keyed.axioms.unionOurs h'.keyed.axioms⟩
  nodeTypes := h.nodeTypes.unionOurs h'.nodeTypes
  edgeTypes := h.edgeTypes.unionOurs h'.edgeTypes
  endpoints id e he := by
    have hnodes := (leftUnion_mergeSnapshots ours theirs).nodes.keys
    rw [hnodes, hnodes]
    rcases get_of_get_unionOurs he with he | he
    · obtain ⟨hs, ht⟩ := h.endpoints id e he
      exact ⟨Or.inl hs, Or.inl ht⟩
    · obtain ⟨hs, ht⟩ := h'.endpoints id e he
      exact ⟨Or.inr hs, Or.inr ht⟩

/-- Union merges are left-biased unions, an idempotent and associative operation that keeps
snapshots sound. -/
theorem mergeSnapshots_union (ours theirs : Ontology) :
    ours.LeftUnion theirs (mergeSnapshots ours theirs .union) ∧
    mergeSnapshots ours ours .union = ours ∧
    (∀ third, mergeSnapshots (mergeSnapshots ours theirs .union) third .union =
      mergeSnapshots ours (mergeSnapshots theirs third .union) .union) ∧
    (ours.Sound → theirs.Sound → (mergeSnapshots ours theirs .union).Sound) :=
  ⟨leftUnion_mergeSnapshots ours theirs, mergeSnapshots_self ours, mergeSnapshots_assoc ours theirs,
    fun h h' => h.merge h'⟩

/-- An organization under the id. -/
private def organization (id : NodeId) : Node := ⟨id, none, ["Organization"], ∅⟩

/-- A link from one to the other. -/
private def link (source target : NodeId) : Edge := ⟨.filled 9, "partOf", source, target, ∅⟩

private theorem sound_organization (id : NodeId) :
    (Ontology.empty.upsertNode (organization id)).Sound :=
  Ontology.Sound.empty.upsertNode _

private theorem sound_link (a b : NodeId) :
    (((Ontology.empty.upsertNode (organization a)).upsertNode (organization b)).upsertEdge
      (link a b)).Sound :=
  ((sound_organization a).upsertNode _).upsertEdge
    (BTreeMap.mem_insert.mpr (Or.inr (BTreeMap.mem_insert.mpr (Or.inl rfl))))
    (BTreeMap.mem_insert.mpr (Or.inl rfl))

/-- One organization merged with a link to another. -/
theorem mergeSnapshots_union_link : (mergeSnapshots
    (Ontology.empty.upsertNode (organization (.filled 1)))
    (((Ontology.empty.upsertNode (organization (.filled 1))).upsertNode
      (organization (.filled 2))).upsertEdge (link (.filled 1) (.filled 2))) .union).Sound :=
  (mergeSnapshots_union _ _).2.2.2 (sound_organization _) (sound_link _ _)

end AtomrOntology
