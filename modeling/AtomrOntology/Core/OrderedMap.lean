import Mathlib

/-!
# Ordered maps and their listings

An ordered map is the standard library's extensional tree map. The lemmas here
relate a map to the list of its values: a map whose keys are computed from its
values loses nothing when it is flattened to that list and rebuilt by inserting
the values one after another.
-/

namespace AtomrOntology

/-- A finite map iterated in the order of its keys. -/
abbrev BTreeMap (κ ν : Type) [Ord κ] := Std.ExtTreeMap κ ν compare

namespace BTreeMap

variable {κ ν : Type} [Ord κ] [Std.TransOrd κ]

/-- The values in key order. -/
def vals (m : BTreeMap κ ν) : List ν := m.toList.map Prod.snd

@[simp] theorem vals_empty : (∅ : BTreeMap κ ν).vals = [] := by
  simp [vals]

/-- Insert every value of a list under the key computed from it, later ones winning. -/
def insertAll (key : ν → κ) (m : BTreeMap κ ν) (vs : List ν) : BTreeMap κ ν :=
  vs.foldl (fun m v => m.insert (key v) v) m

@[simp] theorem insertAll_nil (key : ν → κ) (m : BTreeMap κ ν) : insertAll key m [] = m := rfl

@[simp] theorem insertAll_cons (key : ν → κ) (m : BTreeMap κ ν) (v : ν) (vs : List ν) :
    insertAll key m (v :: vs) = insertAll key (m.insert (key v) v) vs := rfl

/-- Every entry is stored under the key computed from its own value. -/
def KeyedBy (key : ν → κ) (m : BTreeMap κ ν) : Prop := ∀ k v, m[k]? = some v → key v = k

theorem KeyedBy.empty (key : ν → κ) : KeyedBy key (∅ : BTreeMap κ ν) := by
  intro k v h
  simp at h

variable [Std.LawfulEqOrd κ]

/-- The values are those under the keys. -/
theorem mem_vals {m : BTreeMap κ ν} {v : ν} : v ∈ m.vals ↔ ∃ k : κ, m[k]? = some v := by
  simp only [vals, List.mem_map, Prod.exists, exists_eq_right,
    Std.ExtTreeMap.mem_toList_iff_getElem?_eq_some]

/-- A value with a property is found under a key. -/
theorem exists_mem_vals {m : BTreeMap κ ν} {P : ν → Prop} :
    (∃ v ∈ m.vals, P v) ↔ ∃ (k : κ) (v : ν), m[k]? = some v ∧ P v := by
  simp only [mem_vals]
  constructor
  · intro h
    obtain ⟨v, ⟨k, hk⟩, hv⟩ := h
    exact ⟨k, v, hk, hv⟩
  · intro h
    obtain ⟨k, v, hk, hv⟩ := h
    exact ⟨v, ⟨k, hk⟩, hv⟩

/-- Reading back a key just written, or any other key. -/
theorem get_insert [DecidableEq κ] (m : BTreeMap κ ν) (k a : κ) (v : ν) :
    (m.insert k v)[a]? = if k = a then some v else m[a]? := by
  simp only [Std.ExtTreeMap.getElem?_insert, Std.LawfulEqOrd.compare_eq_iff_eq]

/-- Inserting adds a key. -/
theorem mem_insert {m : BTreeMap κ ν} {k a : κ} {v : ν} :
    a ∈ m.insert k v ↔ a = k ∨ a ∈ m := by
  rw [Std.ExtTreeMap.mem_insert, Std.LawfulEqOrd.compare_eq_iff_eq, eq_comm]

/-- The entries after writing a key that was absent. -/
theorem exists_insert [DecidableEq κ] {m : BTreeMap κ ν} {k : κ} {v : ν} {P : ν → Prop}
    (h : m.contains k = false) : (∃ (a : κ) (w : ν), (m.insert k v)[a]? = some w ∧ P w) ↔
      P v ∨ ∃ (a : κ) (w : ν), m[a]? = some w ∧ P w := by
  simp only [get_insert]
  constructor
  · intro hw
    obtain ⟨a, w, ha, hw⟩ := hw
    by_cases hk : k = a
    · rw [if_pos hk] at ha
      exact Or.inl (Option.some.inj ha ▸ hw)
    · rw [if_neg hk] at ha
      exact Or.inr ⟨a, w, ha, hw⟩
  · intro hw
    obtain hv | ⟨a, w, ha, hw⟩ := hw
    · exact ⟨k, v, by rw [if_pos rfl], hv⟩
    · refine ⟨a, w, ?_, hw⟩
      have hk : k ≠ a := by
        intro hk
        rw [hk, ← Std.ExtTreeMap.isSome_getElem?_eq_contains, ha] at h
        cases h
      rw [if_neg hk, ha]

@[simp] theorem mem_vals_singleton [DecidableEq κ] {k : κ} {v w : ν} :
    w ∈ BTreeMap.vals ((∅ : BTreeMap κ ν).insert k v) ↔ w = v := by
  simp only [mem_vals, get_insert]
  constructor
  · intro h
    obtain ⟨a, ha⟩ := h
    by_cases hk : k = a
    · rw [if_pos hk] at ha
      exact (Option.some.inj ha).symm
    · simp [hk] at ha
  · intro h
    exact ⟨k, by rw [if_pos rfl, h]⟩

/-- Inserting a value under its key keeps a map keyed. -/
theorem KeyedBy.insert [DecidableEq κ] {key : ν → κ} {m : BTreeMap κ ν} (h : KeyedBy key m)
    (v : ν) :
    KeyedBy key (m.insert (key v) v) := by
  intro k w hw
  rw [get_insert] at hw
  by_cases hk : key v = k
  · rw [if_pos hk] at hw
    rw [← Option.some.inj hw, hk]
  · rw [if_neg hk] at hw
    exact h k w hw

/-- So does inserting many. -/
theorem KeyedBy.insertAll [DecidableEq κ] {key : ν → κ} {m : BTreeMap κ ν} (h : KeyedBy key m)
    (vs : List ν) : KeyedBy key (insertAll key m vs) := by
  induction vs generalizing m with
  | nil => exact h
  | cons v vs ih => exact ih (h.insert v)

/-- An insertion sequence writes only keys of its own values. -/
theorem get_insertAll_of_not_mem [DecidableEq κ] {key : ν → κ} {k : κ} (m : BTreeMap κ ν)
    (vs : List ν) (h : ∀ v ∈ vs, key v ≠ k) : (insertAll key m vs)[k]? = m[k]? := by
  induction vs generalizing m with
  | nil => rfl
  | cons v vs ih =>
    rw [insertAll_cons, ih _ fun w hw => h w (List.mem_cons_of_mem v hw), get_insert,
      if_neg (h v List.mem_cons_self)]

/-- Values with pairwise different keys are all present after the insertions. -/
theorem get_insertAll_of_mem [DecidableEq κ] {key : ν → κ} (m : BTreeMap κ ν) (vs : List ν)
    (hd : (vs.map key).Nodup) {v : ν} (hv : v ∈ vs) : (insertAll key m vs)[key v]? = some v := by
  induction vs generalizing m with
  | nil => exact absurd hv List.not_mem_nil
  | cons w vs ih =>
    rw [List.map_cons, List.nodup_cons] at hd
    rw [insertAll_cons]
    rcases List.mem_cons.mp hv with rfl | hv
    · have hk : ∀ u ∈ vs, key u ≠ key v := by
        intro u hu he
        exact hd.1 (he ▸ List.mem_map_of_mem hu)
      rw [get_insertAll_of_not_mem _ _ hk, get_insert, if_pos rfl]
    · exact ih _ hd.2 hv

/-- A value whose key no other inserted value has is found under it. -/
theorem get_insertAll_of_inj [DecidableEq κ] {key : ν → κ} (m : BTreeMap κ ν) {vs : List ν} {v : ν}
    (hv : v ∈ vs) (hinj : ∀ w ∈ vs, key w = key v → w = v) :
    (insertAll key m vs)[key v]? = some v := by
  induction vs generalizing m with
  | nil => cases hv
  | cons w vs ih =>
    rw [insertAll_cons]
    by_cases hvs : v ∈ vs
    · exact ih _ hvs fun u hu => hinj u (List.mem_cons_of_mem w hu)
    · obtain rfl := (List.mem_cons.mp hv).resolve_right hvs
      rw [get_insertAll_of_not_mem, get_insert, if_pos rfl]
      intro u hu hkey
      exact hvs (hinj u (List.mem_cons_of_mem v hu) hkey ▸ hu)

/-- Values that their keys determine are exactly the values of the map built from them. -/
theorem mem_vals_insertAll [DecidableEq κ] {key : ν → κ} {vs : List ν}
    (h : ∀ v ∈ vs, ∀ w ∈ vs, key v = key w → v = w) {v : ν} :
    v ∈ (insertAll key ∅ vs : BTreeMap κ ν).vals ↔ v ∈ vs := by
  rw [mem_vals]
  constructor
  · intro hk
    obtain ⟨k, hk⟩ := hk
    by_cases hmem : ∃ w ∈ vs, key w = k
    · obtain ⟨w, hw, rfl⟩ := hmem
      rw [get_insertAll_of_inj ∅ hw fun u hu hkey => h u hu w hw hkey] at hk
      exact Option.some.inj hk ▸ hw
    · rw [get_insertAll_of_not_mem ∅ vs fun w hw hkey => hmem ⟨w, hw, hkey⟩] at hk
      simp at hk
  · intro hv
    exact ⟨key v, get_insertAll_of_inj ∅ hv fun w hw hkey => h w hw v hv hkey⟩

/-- The values of a keyed map have its keys, in order, so they are pairwise different. -/
theorem KeyedBy.map_key_vals {key : ν → κ} {m : BTreeMap κ ν} (h : KeyedBy key m) :
    m.vals.map key = m.keys := by
  rw [← Std.ExtTreeMap.map_fst_toList_eq_keys, vals, List.map_map]
  apply List.map_congr_left
  rintro ⟨k, v⟩ hkv
  exact h k v (Std.ExtTreeMap.mem_toList_iff_getElem?_eq_some.mp hkv)

/-- Flattening a keyed map to its values and inserting them again is the identity. -/
theorem KeyedBy.insertAll_vals [DecidableEq κ] {key : ν → κ} {m : BTreeMap κ ν}
    (h : KeyedBy key m) : BTreeMap.insertAll key ∅ m.vals = m := by
  apply Std.ExtTreeMap.ext_getElem?
  intro k
  cases hk : m[k]? with
  | some v =>
    rw [← h k v hk]
    refine get_insertAll_of_mem _ _ ?_ (mem_vals.mpr ⟨k, hk⟩)
    rw [h.map_key_vals]
    exact Std.ExtTreeMap.nodup_keys
  | none =>
    rw [get_insertAll_of_not_mem]
    · simp
    · intro v hv he
      obtain ⟨k', hk'⟩ := mem_vals.mp hv
      rw [← he, h k' v hk', hk'] at hk
      exact Option.some_ne_none v hk

/-- Rebuilding from any listing restores the map only if it was keyed. -/
theorem keyedBy_of_insertAll_eq [DecidableEq κ] {key : ν → κ} {m : BTreeMap κ ν} {vs : List ν}
    (h : BTreeMap.insertAll key ∅ vs = m) : KeyedBy key m :=
  h ▸ (KeyedBy.empty key).insertAll vs

/-- Entries with pairwise different keys are all in the map built from them. -/
theorem get_ofList_of_mem {kvs : List (κ × ν)} (hd : (kvs.map Prod.fst).Nodup) {k : κ} {v : ν}
    (h : (k, v) ∈ kvs) : (Std.ExtTreeMap.ofList kvs compare)[k]? = some v := by
  refine Std.ExtTreeMap.getElem?_ofList_of_mem Std.ReflCmp.compare_self ?_ h
  rw [List.Nodup, List.pairwise_map] at hd
  exact hd.imp fun hne he => hne (Std.LawfulEqOrd.compare_eq_iff_eq.mp he)

/-- A map rebuilt from images of its entries that keep their keys. -/
theorem get_insertAll_map_toList [DecidableEq κ] {α : Type} {m : BTreeMap κ α} {key : ν → κ}
    {f : κ → α → ν} (hkey : ∀ k v, m[k]? = some v → key (f k v) = k) (k : κ) :
    (insertAll key ∅ (m.toList.map fun kv => f kv.1 kv.2) : BTreeMap κ ν)[k]? =
    m[k]?.map (f k) := by
  have hentry : ∀ kv ∈ m.toList, key (f kv.1 kv.2) = kv.1 := fun kv hkv =>
    hkey kv.1 kv.2 (Std.ExtTreeMap.mem_toList_iff_getElem?_eq_some.mp hkv)
  have hkeys : (m.toList.map fun kv => f kv.1 kv.2).map key = m.keys := by
    rw [List.map_map, ← Std.ExtTreeMap.map_fst_toList_eq_keys]
    exact List.map_congr_left hentry
  cases hk : m[k]? with
  | some v =>
    have hmem : f k v ∈ m.toList.map fun kv => f kv.1 kv.2 :=
      List.mem_map.mpr ⟨(k, v), Std.ExtTreeMap.mem_toList_iff_getElem?_eq_some.mpr hk, rfl⟩
    have hd : ((m.toList.map fun kv => f kv.1 kv.2).map key).Nodup := by
      rw [hkeys]
      exact Std.ExtTreeMap.nodup_keys
    have hget := get_insertAll_of_mem (∅ : BTreeMap κ ν) _ hd hmem
    rwa [hkey k v hk] at hget
  | none =>
    have hnot : ∀ w ∈ m.toList.map fun kv => f kv.1 kv.2, key w ≠ k := by
      intro w hw he
      obtain ⟨kv, hkv, rfl⟩ := List.mem_map.mp hw
      rw [hentry kv hkv] at he
      have hsome := Std.ExtTreeMap.mem_toList_iff_getElem?_eq_some.mp hkv
      rw [he, hk] at hsome
      cases hsome
    rw [get_insertAll_of_not_mem _ _ hnot]
    simp

/-- A map is determined by its entries. -/
theorem ofList_toList [DecidableEq κ] (m : BTreeMap κ ν) :
    Std.ExtTreeMap.ofList m.toList compare = m := by
  apply Std.ExtTreeMap.ext_getElem?
  intro k
  have hd : (m.toList.map Prod.fst).Nodup := by
    rw [Std.ExtTreeMap.map_fst_toList_eq_keys]
    exact Std.ExtTreeMap.nodup_keys
  cases hk : m[k]? with
  | some v => exact get_ofList_of_mem hd (Std.ExtTreeMap.mem_toList_iff_getElem?_eq_some.mpr hk)
  | none =>
    refine Std.ExtTreeMap.getElem?_eq_none fun hm => ?_
    rw [Std.ExtTreeMap.mem_ofList, List.contains_iff_mem, Std.ExtTreeMap.map_fst_toList_eq_keys,
      Std.ExtTreeMap.mem_keys] at hm
    rw [Std.ExtTreeMap.getElem?_eq_some_getElem hm] at hk
    exact Option.some_ne_none _ hk

end BTreeMap

end AtomrOntology
