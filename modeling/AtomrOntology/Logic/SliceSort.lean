import AtomrOntology.Logic.StableSort

/-!
# Sorting by a comparison that may not be an order

A library sort promises the stable sort where the comparison is a total order on the items at hand.
Elsewhere it may leave any permutation, or panic. What is proved of a program that calls it holds of
every sort with that contract.
-/

variable {α : Type} {cmp : α → α → Ordering} {l sorted : List α}

/-- A comparison is a total order on some items: of two of them exactly one of less, equal and
greater holds from either side, and each of the three is transitive. -/
structure TotalOn (cmp : α → α → Ordering) (l : List α) : Prop where
  swap : ∀ a ∈ l, ∀ b ∈ l, cmp b a = (cmp a b).swap
  lt_trans : ∀ a ∈ l, ∀ b ∈ l, ∀ c ∈ l, cmp a b = .lt → cmp b c = .lt → cmp a c = .lt
  eq_trans : ∀ a ∈ l, ∀ b ∈ l, ∀ c ∈ l, cmp a b = .eq → cmp b c = .eq → cmp a c = .eq

/-- The same items in ascending order, those that compare equal in the order they had. -/
structure SortedStably (cmp : α → α → Ordering) (l sorted : List α) : Prop where
  perm : sorted.Perm l
  ascending : sorted.Pairwise fun a b => (cmp a b).isLE = true
  stable : ∀ a ∈ l, (sorted.filter fun b => cmp a b == .eq) = l.filter fun b => cmp a b == .eq

/-- `slice::sort_by`; nothing if it panics. -/
class SliceSort where
  sortBy {α : Type} : (α → α → Ordering) → List α → Option (List α)
  sortBy_total {α : Type} {cmp : α → α → Ordering} {l : List α} : TotalOn cmp l →
    ∃ sorted, sortBy cmp l = some sorted ∧ SortedStably cmp l sorted
  sortBy_perm {α : Type} {cmp : α → α → Ordering} {l sorted : List α} :
    sortBy cmp l = some sorted → sorted.Perm l

/-- Where all items compare equal, the order is total. -/
theorem TotalOn.of_eq (h : ∀ a ∈ l, ∀ b ∈ l, cmp a b = .eq) : TotalOn cmp l where
  swap a ha b hb := by rw [h a ha b hb, h b hb a ha, Ordering.swap_eq]
  lt_trans a ha b hb c hc hab := by
    rw [h a ha b hb] at hab
    cases hab
  eq_trans a ha _ _ c hc _ _ := h a ha c hc

/-- Not greater is transitive. -/
theorem TotalOn.isLE_trans (h : TotalOn cmp l) {a b c : α} (ha : a ∈ l) (hb : b ∈ l) (hc : c ∈ l)
    (hab : (cmp a b).isLE = true) (hbc : (cmp b c).isLE = true) : (cmp a c).isLE = true := by
  have hflip : ∀ {x y : α}, x ∈ l → y ∈ l → cmp x y = .eq → cmp y x = .eq := by
    intro x y hx hy hxy
    rw [h.swap x hx y hy, hxy, Ordering.swap_eq]
  have hgreater : ∀ {x y : α}, x ∈ l → y ∈ l → cmp x y = .gt → cmp y x = .lt := by
    intro x y hx hy hxy
    rw [h.swap x hx y hy, hxy, Ordering.swap_gt]
  cases hac : cmp a c with
  | lt => rfl
  | eq => rfl
  | gt =>
    -- the greater item is below the smaller one, which goes around in a circle
    have hca := hgreater ha hc hac
    exfalso
    cases hx : cmp a b with
    | gt => rw [hx] at hab; cases hab
    | lt =>
      have hcb := h.lt_trans c hc a ha b hb hca hx
      have hbc' := h.swap c hc b hb
      rw [hcb, Ordering.swap_lt] at hbc'
      rw [hbc'] at hbc
      cases hbc
    | eq =>
      cases hy : cmp b c with
      | gt => rw [hy] at hbc; cases hbc
      | lt =>
        have hba := h.lt_trans b hb c hc a ha hy hca
        rw [hflip ha hb hx] at hba
        cases hba
      | eq =>
        rw [h.eq_trans a ha b hb c hc hx hy] at hac
        cases hac

/-- On the items themselves the comparison is a total order. -/
theorem TotalOn.transCmp (h : TotalOn cmp l) :
    Std.TransCmp fun a b : {x // x ∈ l} => cmp a.val b.val where
  eq_swap {a b} := h.swap b.val b.property a.val a.property
  isLE_trans {a b c} := h.isLE_trans a.property b.property c.property

instance : Decidable (TotalOn cmp l) :=
  decidable_of_iff ((∀ a ∈ l, ∀ b ∈ l, cmp b a = (cmp a b).swap) ∧
      (∀ a ∈ l, ∀ b ∈ l, ∀ c ∈ l, cmp a b = .lt → cmp b c = .lt → cmp a c = .lt) ∧
      ∀ a ∈ l, ∀ b ∈ l, ∀ c ∈ l, cmp a b = .eq → cmp b c = .eq → cmp a c = .eq)
    ⟨fun h => ⟨h.1, h.2.1, h.2.2⟩, fun h => ⟨h.swap, h.lt_trans, h.eq_trans⟩⟩

/-- Items that all compare equal stay as they are. -/
theorem SortedStably.eq_of_eq (h : SortedStably cmp l sorted)
    (heq : ∀ a ∈ l, ∀ b ∈ l, cmp a b = .eq) : sorted = l := by
  cases l with
  | nil => exact List.perm_nil.mp h.perm
  | cons a l =>
    have hstable := h.stable a List.mem_cons_self
    have hall : ∀ b ∈ a :: l, (cmp a b == .eq) = true := fun b hb =>
      beq_iff_eq.mpr (heq a List.mem_cons_self b hb)
    rwa [List.filter_eq_self.mpr hall,
      List.filter_eq_self.mpr fun b hb => hall b (h.perm.subset hb)] at hstable

/-- Merge sort of the items, where the comparison is a total order on them. -/
def mergeSorted (cmp : α → α → Ordering) (l : List α) : List α :=
  (l.attach.mergeSort fun a b => (cmp a.val b.val).isLE).map Subtype.val

theorem sortedStably_mergeSorted (h : TotalOn cmp l) :
    SortedStably cmp l (mergeSorted cmp l) := by
  have _ := h.transCmp
  have hsorted : StableSort (fun a b : {x // x ∈ l} => cmp a.val b.val) l.attach
      (l.attach.mergeSort fun a b => (cmp a.val b.val).isLE) := stableSort_mergeSort l.attach
  have hfilter : ∀ (a : {x // x ∈ l}) (items : List {x // x ∈ l}),
      ((items.map Subtype.val).filter fun b => cmp a.val b == .eq) =
        (items.filter fun b => cmp a.val b.val == .eq).map Subtype.val := fun a items =>
    List.filter_map
  refine ⟨?_, ?_, fun a ha => ?_⟩
  · have hperm := hsorted.perm.map Subtype.val
    rwa [List.attach_map_subtype_val] at hperm
  · exact List.pairwise_map.mpr hsorted.ascending
  · rw [mergeSorted, hfilter ⟨a, ha⟩, hsorted.stable ⟨a, ha⟩, ← hfilter ⟨a, ha⟩,
      List.attach_map_subtype_val]

/-- The sort that panics whenever it may. -/
abbrev SliceSort.strict : SliceSort where
  sortBy cmp l := if TotalOn cmp l then some (mergeSorted cmp l) else none
  sortBy_total h := ⟨_, if_pos h, sortedStably_mergeSorted h⟩
  sortBy_perm h := by
    split_ifs at h with htotal
    obtain rfl := Option.some.inj h
    exact (sortedStably_mergeSorted htotal).perm

/-- The first items are related to all that follow them. -/
theorem take_related_iff {R : α → α → Prop} {k : Nat} :
    ((l.take k).Pairwise R ∧ ∀ a ∈ l.take k, ∀ b ∈ l.drop k, R a b) ↔
      ∀ i j a b, i < j → i < k → l[i]? = some a → l[j]? = some b → R a b := by
  induction l generalizing k with
  | nil => simp
  | cons x l ih =>
    cases k with
    | zero => simp
    | succ k =>
      have hmem : ∀ b, (b ∈ l.take k ∨ b ∈ l.drop k) ↔ b ∈ l := fun b => by
        rw [← List.mem_append, List.take_append_drop]
      rw [List.take_succ_cons, List.drop_succ_cons, List.pairwise_cons]
      constructor
      · rintro ⟨⟨hhead, hpair⟩, hcross⟩ i j a b hij hik ha hb
        have hrest := ih.mp ⟨hpair, fun a ha => hcross a (List.mem_cons_of_mem x ha)⟩
        obtain ⟨j, rfl⟩ := Nat.exists_eq_succ_of_ne_zero (Nat.ne_zero_of_lt hij)
        rw [List.getElem?_cons_succ] at hb
        cases i with
        | zero =>
          rw [List.getElem?_cons_zero] at ha
          obtain rfl := Option.some.inj ha
          rcases (hmem b).mpr (List.mem_of_getElem? hb) with hb | hb
          · exact hhead b hb
          · exact hcross x List.mem_cons_self b hb
        | succ i =>
          rw [List.getElem?_cons_succ] at ha
          exact hrest i j a b (Nat.lt_of_succ_lt_succ hij) (Nat.lt_of_succ_lt_succ hik) ha hb
      · intro h
        have hhead : ∀ b ∈ l, R x b := by
          intro b hb
          obtain ⟨j, hj⟩ := List.getElem?_of_mem hb
          exact h 0 (j + 1) x b (Nat.succ_pos j) (Nat.succ_pos k) rfl hj
        obtain ⟨hpair, hcross⟩ := ih.mpr fun i j a b hij hik ha hb =>
          h (i + 1) (j + 1) a b (Nat.succ_lt_succ hij) (Nat.succ_lt_succ hik) ha hb
        refine ⟨⟨fun b hb => hhead b ((hmem b).mp (Or.inl hb)), hpair⟩, fun a ha b hb => ?_⟩
        rcases List.mem_cons.mp ha with rfl | ha
        · exact hhead b ((hmem b).mp (Or.inr hb))
        · exact hcross a ha b hb
