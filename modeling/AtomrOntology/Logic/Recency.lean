import Mathlib

/-!
# Items in the order of their last use

Using an item moves it to the front. Among the first items nothing changes but the order, if the
item is one of them; otherwise all of them move back by one.
-/

variable {α : Type*} [DecidableEq α] {l : List α} {a : α} {n : Nat}

/-- Use an item. -/
def touch (a : α) (l : List α) : List α := a :: l.erase a

/-- Used items are those used before and the one that is used now. -/
theorem mem_touch {b : α} : b ∈ touch a l ↔ b = a ∨ b ∈ l := by
  rw [touch, List.mem_cons]
  constructor
  · rintro (h | h)
    · exact Or.inl h
    · exact Or.inr (List.mem_of_mem_erase h)
  · rintro (h | h)
    · exact Or.inl h
    · by_cases hab : b = a
      · exact Or.inl hab
      · exact Or.inr ((List.mem_erase_of_ne hab).mpr h)

/-- Items that are used again are not repeated. -/
theorem nodup_touch (h : l.Nodup) : (touch a l).Nodup :=
  List.nodup_cons.mpr ⟨fun hmem => (h.mem_erase_iff.mp hmem).1 rfl, h.erase a⟩

/-- There are no more of them then. -/
theorem length_touch_of_mem (h : a ∈ l) : (touch a l).length = l.length := by
  rw [touch, List.length_cons, List.length_erase_of_mem h,
    Nat.sub_add_cancel (List.length_pos_of_mem h)]

/-- An item that is used again stays among the first ones, and so do the others. -/
theorem take_touch_perm (h : a ∈ l.take n) : ((touch a l).take n).Perm (l.take n) := by
  cases n with
  | zero => rw [List.take_zero] at h; cases h
  | succ n =>
    have herase : (l.erase a).take n = (l.take (n + 1)).erase a := by
      induction l generalizing n with
      | nil => cases h
      | cons b l ih =>
        by_cases hb : b = a
        · subst hb
          rw [List.take_succ_cons, List.erase_cons_head, List.erase_cons_head]
        · rw [List.take_succ_cons, List.erase_cons_tail (by simpa using hb),
            List.erase_cons_tail (by simpa using hb)]
          rw [List.take_succ_cons, List.mem_cons, or_iff_right (Ne.symm hb)] at h
          cases n with
          | zero => rw [List.take_zero] at h; cases h
          | succ n => rw [List.take_succ_cons, ih n h]
    rw [touch, List.take_succ_cons, herase]
    exact (List.perm_cons_erase h).symm

/-- A new item displaces the last one of the first items. -/
theorem take_touch_of_not_mem (h : a ∉ l.take n) :
    (touch a l).take (n + 1) = a :: l.take n := by
  have herase : (l.erase a).take n = l.take n := by
    induction l generalizing n with
    | nil => rfl
    | cons b l ih =>
      cases n with
      | zero => rfl
      | succ n =>
        rw [List.take_succ_cons, List.mem_cons, not_or] at h
        rw [List.erase_cons_tail (by simpa using Ne.symm h.1), List.take_succ_cons,
          List.take_succ_cons, ih h.2]
  rw [touch, List.take_succ_cons, herase]
