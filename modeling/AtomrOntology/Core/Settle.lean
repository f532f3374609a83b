import AtomrOntology.Core.OrderedMap

/-!
# Reconciled writes

Values are written to a map under the keys computed from them, after a policy reconciled
each with what the map held before any of them was written. Of the values with one key only
the last is kept, so writing the same values again changes nothing, for every policy that
skips all writes to a key or none and that repeats itself on its own result.
-/

namespace AtomrOntology

namespace BTreeMap

variable {κ ν : Type} [Ord κ] [Std.TransOrd κ] [Std.LawfulEqOrd κ] [DecidableEq κ]
  {key : ν → κ} {m : BTreeMap κ ν} {vs : List ν} {policy : Option ν → ν → Option ν}

/-- The value is the last of the list with its key. -/
def LastWithKey (key : ν → κ) (vs : List ν) (v : ν) : Prop :=
  ∃ before after, vs = before ++ v :: after ∧ ∀ w ∈ after, key w ≠ key v

omit [Ord κ] [Std.TransOrd κ] [Std.LawfulEqOrd κ] [DecidableEq κ] in
/-- Every key of the list is the key of a last value. -/
theorem exists_lastWithKey {v : ν} (hv : v ∈ vs) : ∃ w, LastWithKey key vs w ∧ key w = key v := by
  induction vs generalizing v with
  | nil => cases hv
  | cons u us ih =>
    by_cases hlater : ∃ w ∈ us, key w = key v
    · obtain ⟨w, hw, hkey⟩ := hlater
      obtain ⟨x, ⟨before, after, rfl, hafter⟩, hx⟩ := ih hw
      exact ⟨x, ⟨u :: before, after, rfl, hafter⟩, hx.trans hkey⟩
    · rcases List.mem_cons.mp hv with rfl | hv
      · exact ⟨v, ⟨[], us, rfl, fun w hw hkey => hlater ⟨w, hw, hkey⟩⟩, rfl⟩
      · exact absurd ⟨v, hv, rfl⟩ hlater

omit [Ord κ] [Std.TransOrd κ] [Std.LawfulEqOrd κ] [DecidableEq κ] in
/-- A function that keeps the keys keeps which values are last. -/
theorem lastWithKey_map {f : ν → ν} (hf : ∀ v, key (f v) = key v) {w : ν} :
    LastWithKey key (vs.map f) w ↔ ∃ v, LastWithKey key vs v ∧ f v = w := by
  constructor
  · intro h
    obtain ⟨before, after, heq, hafter⟩ := h
    obtain ⟨before, rest, rfl, rfl, hrest⟩ := List.map_eq_append_iff.mp heq
    obtain ⟨v, after, rfl, rfl, rfl⟩ := List.map_eq_cons_iff.mp hrest
    refine ⟨v, ⟨before, after, rfl, fun u hu => ?_⟩, rfl⟩
    have hne := hafter (f u) (List.mem_map_of_mem hu)
    rwa [hf, hf] at hne
  · intro h
    obtain ⟨v, ⟨before, after, rfl, hafter⟩, rfl⟩ := h
    refine ⟨before.map f, after.map f, by simp, fun u hu => ?_⟩
    obtain ⟨x, hx, rfl⟩ := List.mem_map.mp hu
    rw [hf, hf]
    exact hafter x hx

/-- The last value with its key is what the insertions leave under it. -/
theorem get_insertAll_of_last {v : ν} (h : LastWithKey key vs v) :
    (insertAll key m vs)[key v]? = some v := by
  obtain ⟨before, after, rfl, hafter⟩ := h
  have hsplit : insertAll key m (before ++ v :: after) =
      insertAll key ((insertAll key m before).insert (key v) v) after := by
    simp only [insertAll, List.foldl_append, List.foldl_cons]
  rw [hsplit, get_insertAll_of_not_mem _ _ hafter, get_insert, if_pos rfl]

/-- Insertions change nothing exactly if the last value with each key is stored already. -/
theorem insertAll_eq_self_iff :
    insertAll key m vs = m ↔ ∀ v, LastWithKey key vs v → m[key v]? = some v := by
  constructor
  · intro h v hv
    rw [← h]
    exact get_insertAll_of_last hv
  · intro h
    ext k : 1
    by_cases hk : ∃ v ∈ vs, key v = k
    · obtain ⟨v, hv, rfl⟩ := hk
      obtain ⟨w, hw, hkey⟩ : ∃ w, LastWithKey key vs w ∧ key w = key v := exists_lastWithKey hv
      rw [← hkey, get_insertAll_of_last hw, h w hw]
    · exact get_insertAll_of_not_mem m vs fun v hv hkey => hk ⟨v, hv, hkey⟩

/-- What is stored under a key after some insertions is the last value with that key. -/
theorem get_insertAll (m : BTreeMap κ ν) (vs : List ν) (k : κ) :
    (insertAll key m vs)[k]? = ((vs.filter fun v => key v = k).getLast?).or m[k]? := by
  induction vs generalizing m with
  | nil => simp
  | cons v vs ih =>
    rw [insertAll_cons, ih, get_insert]
    by_cases hk : key v = k
    · cases h : vs.filter fun v => key v = k with
      | nil => simp [hk, h]
      | cons w ws => simp [hk, h, List.getLast?_cons]
    · simp [hk]

theorem mem_vals_of_insertAll {v : ν} (h : v ∈ (insertAll key m vs).vals) :
    v ∈ vs ∨ v ∈ m.vals := by
  obtain ⟨k, hk⟩ := mem_vals.mp h
  rw [get_insertAll, Option.or_eq_some_iff] at hk
  obtain hlast | ⟨-, hold⟩ := hk
  · exact Or.inl (List.mem_of_mem_filter (List.mem_of_getLast? hlast))
  · exact Or.inr (mem_vals.mpr ⟨k, hold⟩)

/-- Values with pairwise different keys may be inserted in any order, and more than once. -/
theorem insertAll_eq_of_mem_iff {vs' : List ν} (hmem : ∀ v, v ∈ vs ↔ v ∈ vs')
    (hinj : ∀ v ∈ vs, ∀ v' ∈ vs, key v = key v' → v = v') :
    insertAll key m vs = insertAll key m vs' := by
  ext k : 1
  rw [get_insertAll, get_insertAll]
  congr 1
  have hfilter : ∀ v, v ∈ vs.filter (fun v => key v = k) ↔ v ∈ vs'.filter (fun v => key v = k) := by
    intro v
    rw [List.mem_filter, List.mem_filter, hmem]
  cases hlast : (vs.filter fun v => key v = k).getLast? with
  | none =>
    rw [List.getLast?_eq_none_iff] at hlast
    rw [eq_comm, List.getLast?_eq_none_iff, List.eq_nil_iff_forall_not_mem]
    simpa [← hfilter] using List.eq_nil_iff_forall_not_mem.mp hlast
  | some v =>
    have hv := List.mem_of_getLast? hlast
    obtain ⟨w, hw⟩ := List.getLast?_isSome.mpr (List.ne_nil_of_mem ((hfilter v).mp hv)) |>
      Option.isSome_iff_exists.mp
    have hw' := (hfilter w).mpr (List.mem_of_getLast? hw)
    rw [List.mem_filter, decide_eq_true_eq] at hv hw'
    rw [hw, hinj v hv.1 w hw'.1 (hv.2.trans hw'.2.symm)]

/-- Overwriting with all entries of a map. -/
theorem get_insertMany_toList (m m' : BTreeMap κ ν) (k : κ) :
    (m.insertMany m'.toList)[k]? = m'[k]?.or m[k]? := by
  cases hk : m'[k]? with
  | some v =>
    rw [Std.ExtTreeMap.getElem?_insertMany_list_of_mem Std.ReflCmp.compare_self
      Std.ExtTreeMap.distinct_keys_toList (Std.ExtTreeMap.mem_toList_iff_getElem?_eq_some.mpr hk)]
    rfl
  | none =>
    rw [Std.ExtTreeMap.getElem?_insertMany_list_of_contains_eq_false]
    · rfl
    · rw [Std.ExtTreeMap.map_fst_toList_eq_keys, List.contains_eq_mem, decide_eq_false_iff_not,
        Std.ExtTreeMap.mem_keys]
      simpa using hk

/-- Insert values, each reconciled with what was stored before the first of them. -/
def settle (policy : Option ν → ν → Option ν) (key : ν → κ) (m : BTreeMap κ ν) (vs : List ν) :
    BTreeMap κ ν :=
  insertAll key m (vs.filterMap fun v => policy m[key v]? v)

/-- A policy skips all writes to a key or none, and writes the same value to its own result. -/
structure Repeats (policy : Option ν → ν → Option ν) : Prop where
  uniform : ∀ e v v', policy e v = none → policy e v' = none
  absorbing : ∀ e v w, policy e v = some w → policy (some w) v = none ∨ policy (some w) v = some w

/-- The values that are written stay under the keys of the incoming ones. -/
def StaysPut (policy : Option ν → ν → Option ν) (key : ν → κ) (m : BTreeMap κ ν)
    (vs : List ν) : Prop := ∀ v ∈ vs, ∀ w, policy m[key v]? v = some w → key w = key v

omit [Std.LawfulEqOrd κ] in
theorem filter_reconciled (h : StaysPut policy key m vs) (k : κ) :
    (vs.filterMap fun v => policy m[key v]? v).filter (fun v => key v = k) =
      (vs.filter fun v => key v = k).filterMap (policy m[k]?) := by
  induction vs with
  | nil => rfl
  | cons v vs ih =>
    have hrest := ih fun v' hv' => h v' (List.mem_cons_of_mem v hv')
    by_cases hk : key v = k
    · subst hk
      cases hw : policy m[key v]? v with
      | none => simpa [hw] using hrest
      | some w => simpa [hw, h v List.mem_cons_self w hw] using hrest
    · cases hw : policy m[key v]? v with
      | none => simpa [hw, hk] using hrest
      | some w => simpa [hw, hk, h v List.mem_cons_self w hw] using hrest

/-- A uniform policy decides by the last value. -/
theorem Repeats.getLast?_filterMap (h : Repeats policy) (e : Option ν) (vs : List ν) :
    (vs.filterMap (policy e)).getLast? = vs.getLast?.bind (policy e) := by
  induction vs using List.reverseRecOn with
  | nil => rfl
  | append_singleton vs v _ =>
    rw [List.filterMap_append, List.getLast?_concat]
    cases hv : policy e v with
    | some w => simp [hv]
    | none =>
      have hskip : vs.filterMap (policy e) = [] :=
        List.filterMap_eq_nil_iff.mpr fun v' _ => h.uniform e v v' hv
      simp [hv, hskip]

theorem get_settle (h : Repeats policy) (hstays : StaysPut policy key m vs) (k : κ) :
    (settle policy key m vs)[k]? =
      ((vs.filter fun v => key v = k).getLast?.bind (policy m[k]?)).or m[k]? := by
  rw [settle, get_insertAll, filter_reconciled hstays, h.getLast?_filterMap]

/-- Writing the same values again changes nothing. -/
theorem settle_settle (h : Repeats policy) (hstays : StaysPut policy key m vs)
    (hagain : StaysPut policy key (settle policy key m vs) vs) :
    settle policy key (settle policy key m vs) vs = settle policy key m vs := by
  apply Std.ExtTreeMap.ext_getElem?
  intro k
  rw [get_settle h hagain, get_settle h hstays]
  cases (vs.filter fun v => key v = k).getLast? with
  | none => simp
  | some v =>
    cases hw : policy m[k]? v with
    | none => simp [hw]
    | some w =>
      obtain hskip | hsame := h.absorbing _ v w hw
      · simp [hw, hskip]
      · simp [hw, hsame]

/-- Insert values, each reconciled with what is stored by then. -/
def settleEach (policy : Option ν → ν → Option ν) (key : ν → κ) (m : BTreeMap κ ν)
    (vs : List ν) : BTreeMap κ ν :=
  vs.foldl (fun m v => match policy m[key v]? v with
    | some w => m.insert (key v) w
    | none => m) m

/-- Under a key only the values with that key count, one after the other. -/
theorem get_settleEach (policy : Option ν → ν → Option ν) (key : ν → κ) (m : BTreeMap κ ν)
    (vs : List ν) (k : κ) : (settleEach policy key m vs)[k]? =
      (vs.filter fun v => key v = k).foldl (fun e v => (policy e v).or e) m[k]? := by
  induction vs generalizing m with
  | nil => rfl
  | cons v vs ih =>
    rw [settleEach, List.foldl_cons]
    refine (ih _).trans ?_
    by_cases hk : key v = k
    · subst hk
      rw [List.filter_cons_of_pos (by simp), List.foldl_cons]
      congr 1
      cases policy m[key v]? v with
      | none => rfl
      | some w => simp
    · rw [List.filter_cons_of_neg (by simpa using hk)]
      congr 1
      cases policy m[key v]? v with
      | none => rfl
      | some w => simp [get_insert, hk]

/-- When all values are reconciled before the first is written, and when each is reconciled with
what the ones before it left. -/
theorem settle_eq_settleEach_iff (h : Repeats policy) (hstays : StaysPut policy key m vs) :
    settle policy key m vs = settleEach policy key m vs ↔
      ∀ k earlier last, vs.filter (fun v => key v = k) = earlier ++ [last] →
        (policy m[k]? last).or m[k]? =
          (earlier ++ [last]).foldl (fun e v => (policy e v).or e) m[k]? := by
  constructor
  · intro heq k earlier last hsplit
    have hk := congrArg (·[k]?) heq
    simpa [get_settle h hstays, get_settleEach, hsplit] using hk
  · intro hkeys
    apply Std.ExtTreeMap.ext_getElem?
    intro k
    rw [get_settle h hstays, get_settleEach]
    obtain hnone | ⟨earlier, last, hsplit⟩ := List.eq_nil_or_concat' (vs.filter fun v => key v = k)
    · simp [hnone]
    · rw [hsplit, ← hkeys k earlier last hsplit]
      simp

/-- Every write replaces. -/
theorem repeats_replace : Repeats fun (_ : Option ν) v => some v :=
  ⟨fun _ _ _ h => absurd h (Option.some_ne_none _), fun _ _ _ h => Or.inr h⟩

omit [Std.LawfulEqOrd κ] [DecidableEq κ] in
theorem settle_replace (key : ν → κ) (m : BTreeMap κ ν) (vs : List ν) :
    settle (fun _ v => some v) key m vs = insertAll key m vs := by
  simp [settle]

theorem insertAll_insertAll (key : ν → κ) (m : BTreeMap κ ν) (vs : List ν) :
    insertAll key (insertAll key m vs) vs = insertAll key m vs := by
  have hstays : ∀ m : BTreeMap κ ν, StaysPut (fun _ v => some v) key m vs :=
    fun _ v _ w h => congrArg key (Option.some.inj h).symm
  simpa only [settle_replace] using settle_settle repeats_replace (hstays m) (hstays _)

end BTreeMap

end AtomrOntology
