import AtomrOntology.Core.OrderedMap

/-!
# Sets, indexes and accumulating loops

Ordered sets, maps from a key to a collection, and what a loop collects that adds to a
collection for each item it visits.
-/

namespace AtomrOntology

/-- A finite set iterated in order. -/
abbrev BTreeSet (α : Type) [Ord α] := Std.ExtTreeSet α compare

/-- Tuples are ordered lexicographically. -/
instance instOrdPair {α β : Type} [Ord α] [Ord β] : Ord (α × β) := lexOrd

/-- A loop that adds to a collection for each item collects what it adds for any of them. -/
theorem foldl_collects {σ ι α : Type} (has : σ → α → Prop) (adds : ι → α → Prop)
    {step : σ → ι → σ} (h : ∀ s x a, has (step s x) a ↔ has s a ∨ adds x a) (xs : List ι)
    (s : σ) (a : α) : has (xs.foldl step s) a ↔ has s a ∨ ∃ x ∈ xs, adds x a := by
  induction xs generalizing s with
  | nil => simp
  | cons x xs ih =>
    rw [List.foldl_cons, ih, h, or_assoc]
    simp

/-- A loop whose steps append to what is found at one place, or leave it. -/
theorem foldl_appends {σ ι α : Type} (view : σ → Option (List α)) (adds : ι → Option (List α))
    {step : σ → ι → σ}
    (h : ∀ s x, view (step s x) = match adds x with
      | some es => some ((view s).getD [] ++ es)
      | none => view s) (xs : List ι) (s : σ) :
    view (xs.foldl step s) = if xs.filterMap adds = [] then view s
      else some ((view s).getD [] ++ (xs.filterMap adds).flatten) := by
  induction xs generalizing s with
  | nil => simp
  | cons x xs ih =>
    rw [List.foldl_cons, ih, h]
    cases hx : adds x with
    | none => simp [hx]
    | some es =>
      by_cases hxs : xs.filterMap adds = []
      · simp [hx, hxs]
      · simp [hx, hxs]

namespace BTreeSet

variable {α : Type} [Ord α] [Std.TransOrd α] [Std.LawfulEqOrd α]

/-- Inserting adds a member. -/
theorem mem_insert {s : BTreeSet α} {a b : α} : b ∈ s.insert a ↔ b = a ∨ b ∈ s := by
  rw [Std.ExtTreeSet.mem_insert, Std.LawfulEqOrd.compare_eq_iff_eq, eq_comm]

end BTreeSet

namespace BTreeMap

variable {κ α : Type} [Ord κ] [Std.TransOrd κ]

/-- `m.entry(k).or_default()`, changed in place. -/
def entryOr (m : BTreeMap κ α) (k : κ) (default : α) (change : α → α) : BTreeMap κ α :=
  m.alter k fun v => some (change (v.getD default))

/-- Changing an entry changes what is found under its key. -/
theorem get_entryOr [Std.LawfulEqOrd κ] [DecidableEq κ] (m : BTreeMap κ α) (k a : κ) (d : α)
    (change : α → α) :
    (entryOr m k d change)[a]?.getD d = if k = a then change (m[a]?.getD d) else m[a]?.getD d := by
  rw [entryOr, Std.ExtTreeMap.getElem?_alter]
  simp only [Std.LawfulEqOrd.compare_eq_iff_eq]
  by_cases h : k = a
  · rw [if_pos h, if_pos h, h]
    rfl
  · rw [if_neg h, if_neg h]

/-- A value is in the collection at a key. -/
def Has [Ord α] [Std.TransOrd α] (m : BTreeMap κ (BTreeSet α)) (k : κ) (v : α) : Prop :=
  v ∈ (m[k]?.getD ∅)

/-- A value is had under a key if it is in its set. -/
theorem has_iff [Ord α] [Std.TransOrd α] {m : BTreeMap κ (BTreeSet α)} {k : κ} {v : α} :
    Has m k v ↔ ∃ s, m[k]? = some s ∧ v ∈ s := by
  unfold Has
  cases m[k]? <;> simp

variable [Std.LawfulEqOrd κ] [DecidableEq κ]

/-- Inserting adds a value under its key. -/
theorem has_entryOr [Ord α] [Std.TransOrd α] [Std.LawfulEqOrd α] {m : BTreeMap κ (BTreeSet α)}
    {k a : κ} {v w : α} : Has (m.entryOr k ∅ (·.insert v)) a w ↔ Has m a w ∨ (k = a ∧ v = w) := by
  rw [Has, get_entryOr]
  by_cases h : k = a
  · rw [if_pos h, BTreeSet.mem_insert, Has]
    simp only [h, true_and, or_comm, eq_comm]
  · rw [if_neg h, Has]
    simp only [h, false_and, or_false]

end BTreeMap

end AtomrOntology
