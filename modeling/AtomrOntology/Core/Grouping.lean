import AtomrOntology.Core.OrderedMap

/-!
# Groups

Items collected under their keys, each group in the order of the items. Listing the groups
one after the other permutes the items.
-/

namespace AtomrOntology

namespace BTreeMap

variable {κ ν α β : Type} [Ord κ] [Std.TransOrd κ]

/-- `m.entry(key).or_default().push(item)` for every item. -/
def groupBy (key : α → κ) (items : List α) : BTreeMap κ (List α) :=
  items.foldl (fun m a => m.insert (key a) (m[key a]?.getD [] ++ [a])) ∅

theorem groupBy_concat {key : α → κ} (items : List α) (a : α) :
    groupBy key (items ++ [a]) =
      (groupBy key items).insert (key a) ((groupBy key items)[key a]?.getD [] ++ [a]) := by
  rw [groupBy, List.foldl_append]
  rfl

theorem nodup_toList (m : BTreeMap κ ν) : m.toList.Nodup := by
  have hkeys : (m.toList.map Prod.fst).Nodup := by
    rw [Std.ExtTreeMap.map_fst_toList_eq_keys]
    exact Std.ExtTreeMap.nodup_keys
  exact hkeys.of_map _

variable [Std.LawfulEqOrd κ] [DecidableEq κ]

/-- An entry is found in the listing as it is found in the map. -/
theorem lookup_toList (m : BTreeMap κ ν) (k : κ) : m.toList.lookup k = m[k]? := by
  cases hk : m[k]? with
  | some v =>
    have hmem : (k, v) ∈ m.toList := Std.ExtTreeMap.mem_toList_iff_getElem?_eq_some.mpr hk
    obtain ⟨before, rest, hsplit⟩ := List.append_of_mem hmem
    refine List.lookup_eq_some_iff.mpr ⟨before, rest, hsplit, fun e he => ?_⟩
    have hkeys : (m.toList.map Prod.fst).Nodup := by
      rw [Std.ExtTreeMap.map_fst_toList_eq_keys]
      exact Std.ExtTreeMap.nodup_keys
    rw [hsplit, List.map_append] at hkeys
    have hne := List.disjoint_of_nodup_append hkeys (List.mem_map_of_mem he)
    simp only [List.map_cons, List.mem_cons] at hne
    exact bne_iff_ne.mpr fun h => hne (Or.inl h.symm)
  | none =>
    refine List.lookup_eq_none_iff.mpr fun e he => ?_
    rw [bne_iff_ne]
    rintro rfl
    rw [Std.ExtTreeMap.mem_toList_iff_getElem?_eq_some.mp he] at hk
    cases hk

/-- The entries behind an insertion: the new one, and the old ones with another key. -/
theorem toList_insert_perm (m : BTreeMap κ ν) (k : κ) (v : ν) :
    (m.insert k v).toList.Perm ((k, v) :: m.toList.filter fun e => e.1 ≠ k) := by
  have hfresh : (k, v) ∉ m.toList.filter fun e => e.1 ≠ k := by simp
  refine (List.perm_ext_iff_of_nodup (nodup_toList _)
    (List.nodup_cons.mpr ⟨hfresh, (nodup_toList m).filter _⟩)).mpr fun e => ?_
  rw [Std.ExtTreeMap.mem_toList_iff_getElem?_eq_some, get_insert, List.mem_cons, List.mem_filter,
    Std.ExtTreeMap.mem_toList_iff_getElem?_eq_some]
  obtain ⟨a, w⟩ := e
  by_cases h : k = a
  · simp [h, eq_comm]
  · simp [h, Ne.symm h]

/-- The entries of a map: the one with the key, if there is one, and the others. -/
theorem toList_perm (m : BTreeMap κ ν) (k : κ) : m.toList.Perm
    (m[k]?.toList.map (fun v => (k, v)) ++ m.toList.filter fun e => e.1 ≠ k) := by
  cases hk : m[k]? with
  | some v =>
    have hsame : m.insert k v = m := by
      ext a : 1
      rw [get_insert]
      by_cases h : k = a
      · rw [if_pos h, ← h, hk]
      · rw [if_neg h]
    have hperm := toList_insert_perm m k v
    rwa [hsame] at hperm
  | none =>
    have hall : ∀ e ∈ m.toList, e.1 ≠ k := by
      rintro ⟨a, w⟩ he rfl
      rw [Std.ExtTreeMap.mem_toList_iff_getElem?_eq_some.mp he] at hk
      cases hk
    rw [List.filter_eq_self.mpr fun e he => decide_eq_true (hall e he)]
    exact .refl _

/-- Adding something to what one entry lists adds it to what all entries list. -/
theorem flatMap_insert_perm (m : BTreeMap κ ν) {k : κ} {v : ν} {f : κ × ν → List β} (new : List β)
    (h : f (k, v) = m[k]?.toList.flatMap (fun w => f (k, w)) ++ new) :
    ((m.insert k v).toList.flatMap f).Perm (m.toList.flatMap f ++ new) := by
  have hinsert := (toList_insert_perm m k v).flatMap_right f
  have hbefore := (toList_perm m k).flatMap_right f
  rw [List.flatMap_cons, h] at hinsert
  rw [List.flatMap_append, List.flatMap_map] at hbefore
  refine hinsert.trans ?_
  refine .trans ?_ (hbefore.symm.append_right new)
  rw [List.append_assoc, List.append_assoc]
  exact List.perm_append_comm.append_left _

variable {key : α → κ}

/-- Every item of a group has its key. -/
theorem key_of_mem_groupBy {items group : List α} {k : κ}
    (h : (groupBy key items)[k]? = some group) :
    ∀ a ∈ group, key a = k := by
  induction items using List.reverseRecOn generalizing k group with
  | nil => simp [groupBy] at h
  | append_singleton items a ih =>
    rw [groupBy_concat, get_insert] at h
    by_cases hk : key a = k
    · rw [if_pos hk] at h
      obtain rfl := Option.some.inj h
      intro b hb
      rcases List.mem_append.mp hb with hb | hb
      · cases hgroup : (groupBy key items)[key a]? with
        | none => simp [hgroup] at hb
        | some old =>
          rw [hgroup] at hb
          exact (ih hgroup b hb).trans hk
      · exact List.mem_singleton.mp hb ▸ hk
    · rw [if_neg hk] at h
      exact ih h

/-- What the groups list, item by item, is what the items list. -/
theorem flatMap_groupBy_perm (items : List α) (f : α → List β) :
    ((groupBy key items).toList.flatMap fun g => g.2.flatMap f).Perm (items.flatMap f) := by
  induction items using List.reverseRecOn with
  | nil => simp [groupBy]
  | append_singleton items a ih =>
    rw [groupBy_concat, List.flatMap_append]
    refine .trans (flatMap_insert_perm _ (f a) ?_) (ih.append_right _ |>.trans ?_)
    · cases (groupBy key items)[key a]? <;> simp
    · simp

end BTreeMap

end AtomrOntology
