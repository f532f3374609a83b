import Mathlib

/-!
# Stable sorting and pages

A stable sort of a list is determined by the list and the comparison. Merge sort yields it.
Pages of equal size, taken one after the other, make up the list.
-/

variable {α : Type*} {cmp : α → α → Ordering} {l sorted other : List α}

/-- The same items in ascending order, those that compare equal in the order they had. -/
structure StableSort (cmp : α → α → Ordering) (l sorted : List α) : Prop where
  perm : sorted.Perm l
  ascending : sorted.Pairwise fun a b => (cmp a b).isLE = true
  stable : ∀ a, (sorted.filter fun b => cmp a b == .eq) = l.filter fun b => cmp a b == .eq

/-- Two ascending lists with the same items, equal ones in the same order, are the same. -/
theorem eq_of_ascending [Std.TransCmp cmp] (hperm : sorted.Perm other)
    (hsorted : sorted.Pairwise fun a b => (cmp a b).isLE = true)
    (hother : other.Pairwise fun a b => (cmp a b).isLE = true)
    (hstable : ∀ a, (sorted.filter fun b => cmp a b == .eq) = other.filter fun b =>
      cmp a b == .eq) :
    sorted = other := by
  induction sorted generalizing other with
  | nil => exact (List.nil_perm.mp hperm).symm
  | cons a sorted ih =>
    cases other with
    | nil => exact absurd hperm.length_eq (Nat.succ_ne_zero _)
    | cons b other =>
      have hle : ∀ {x y : α} {xs ys : List α}, (x :: xs).Perm (y :: ys) →
          (y :: ys).Pairwise (fun a b => (cmp a b).isLE = true) → (cmp y x).isLE = true := by
        intro x y xs ys hp hys
        rcases List.mem_cons.mp (hp.subset List.mem_cons_self) with rfl | hmem
        · exact Std.ReflCmp.isLE_rfl
        · exact (List.pairwise_cons.mp hys).1 x hmem
      have hba := hle hperm hother
      have hab := hle hperm.symm hsorted
      have heq : cmp a b = .eq := Std.OrientedCmp.isLE_antisymm hab hba
      -- Both heads compare equal to `a`, so they are the first of their kind in both lists.
      have hheads := hstable a
      have hself : cmp a a = .eq := Std.ReflCmp.compare_self
      simp only [List.filter_cons, hself, heq, BEq.rfl, ↓reduceIte] at hheads
      obtain rfl := (List.cons.inj hheads).1
      have hrest : ∀ c, (sorted.filter fun b => cmp c b == .eq) =
          other.filter fun b => cmp c b == .eq := by
        intro c
        have hc := hstable c
        rw [List.filter_cons, List.filter_cons] at hc
        split at hc
        · exact (List.cons.inj hc).2
        · exact hc
      rw [ih hperm.cons_inv hsorted.of_cons hother.of_cons hrest]

theorem StableSort.unique [Std.TransCmp cmp] (h : StableSort cmp l sorted)
    (h' : StableSort cmp l other) : sorted = other :=
  eq_of_ascending (h.perm.trans h'.perm.symm) h.ascending h'.ascending
    fun a => (h.stable a).trans (h'.stable a).symm

/-- Merge sort is the stable sort. -/
theorem stableSort_mergeSort [Std.TransCmp cmp] (l : List α) :
    StableSort cmp l (l.mergeSort fun a b => (cmp a b).isLE) := by
  have htrans : ∀ a b c, (cmp a b).isLE = true → (cmp b c).isLE = true → (cmp a c).isLE = true :=
    fun a b c => Std.TransCmp.isLE_trans
  have htotal : ∀ a b, ((cmp a b).isLE || (cmp b a).isLE) = true := by
    intro a b
    have hswap : cmp b a = (cmp a b).swap := Std.OrientedCmp.eq_swap
    rw [hswap]
    cases cmp a b <;> rfl
  have hperm := List.mergeSort_perm l fun a b => (cmp a b).isLE
  refine ⟨hperm, List.pairwise_mergeSort htrans htotal l, fun a => ?_⟩
  -- The items that compare equal to `a` are a sorted sublist, and merge sort keeps those.
  have hequal : (l.filter fun b => cmp a b == .eq).Pairwise fun b c => (cmp b c).isLE = true := by
    refine List.pairwise_iff_forall_sublist.mpr fun {b c} hsub => ?_
    have hb := (List.mem_filter.mp (hsub.subset List.mem_cons_self)).2
    have hc := (List.mem_filter.mp (hsub.subset (List.mem_cons_of_mem b List.mem_cons_self))).2
    have hbc : cmp b c = .eq :=
      Std.TransCmp.eq_trans (Std.OrientedCmp.eq_symm (eq_of_beq hb)) (eq_of_beq hc)
    rw [hbc]
    rfl
  have hsub := (List.sublist_mergeSort htrans htotal hequal List.filter_sublist).filter
    fun b => cmp a b == .eq
  rw [List.filter_filter] at hsub
  simp only [Bool.and_self] at hsub
  exact (hsub.eq_of_length (hperm.filter _).length_eq.symm).symm

/-- The items from an offset on, at most so many. -/
def page (l : List α) (skip size : Nat) : List α := (l.drop skip).take size

theorem flatten_pages_take (l : List α) (size count : Nat) :
    ((List.range count).map fun k => page l (k * size) size).flatten = l.take (count * size) := by
  induction count with
  | zero => simp
  | succ count ih =>
    rw [List.range_succ, List.map_append, List.flatten_append, ih, List.map_singleton,
      List.flatten_singleton, page, Nat.succ_mul, List.take_add]

/-- Pages up to the end of a list make up the list. -/
theorem flatten_pages {size : Nat} (hsize : 0 < size) (l : List α) :
    ((List.range (l.length / size + 1)).map fun k => page l (k * size) size).flatten = l := by
  have hall : l.length ≤ (l.length / size + 1) * size := by
    have hlt := Nat.lt_div_mul_add (a := l.length) hsize
    rw [Nat.succ_mul]
    exact hlt.le
  rw [flatten_pages_take, List.take_of_length_le hall]
