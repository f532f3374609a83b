import Mathlib

/-!
# Walks and distances

Walks of a given length in a relation. The nodes at distance `n + 1` from a start are the
successors of the nodes at distance `n` that are not within distance `n`, which is what a
breadth-first search computes layer by layer.
-/

namespace Walk

variable {α : Type*} {R : α → α → Prop} {a b c : α} {m n : ℕ}

/-- `n` steps of the relation lead from `a` to `b`. -/
inductive Steps (R : α → α → Prop) (a : α) : ℕ → α → Prop
  | refl : Steps R a 0 a
  | snoc {n : ℕ} {b c : α} : Steps R a n b → R b c → Steps R a (n + 1) c

/-- The shortest walk has length `n`. -/
structure AtDistance (R : α → α → Prop) (a : α) (n : ℕ) (b : α) : Prop where
  steps : Steps R a n b
  shortest : ∀ m < n, ¬Steps R a m b

/-- Some walk has length at most `n`. -/
def Within (R : α → α → Prop) (a : α) (n : ℕ) (b : α) : Prop := ∃ m ≤ n, Steps R a m b

@[simp] theorem steps_zero : Steps R a 0 b ↔ b = a := by
  constructor
  · intro h
    cases h
    rfl
  · intro h
    exact h ▸ .refl

/-- A further step is taken after the others. -/
theorem steps_succ : Steps R a (n + 1) c ↔ ∃ b, Steps R a n b ∧ R b c := by
  constructor
  · intro h
    cases h with
    | snoc hs hr => exact ⟨_, hs, hr⟩
  · intro h
    obtain ⟨b, hs, hr⟩ := h
    exact .snoc hs hr

@[simp] theorem atDistance_zero : AtDistance R a 0 b ↔ b = a := by
  constructor
  · intro h
    exact steps_zero.mp h.steps
  · intro h
    exact ⟨steps_zero.mpr h, fun m hm => absurd hm (Nat.not_lt_zero m)⟩

@[simp] theorem within_zero : Within R a 0 b ↔ b = a := by
  simp [Within]

/-- A shortest walk is at most as long as any walk. -/
theorem Steps.exists_atDistance (h : Steps R a n b) : ∃ m ≤ n, AtDistance R a m b := by
  classical
  have hex : ∃ m, Steps R a m b := ⟨n, h⟩
  exact ⟨Nat.find hex, Nat.find_min' hex h, Nat.find_spec hex, fun m hm => Nat.find_min hex hm⟩

/-- The distance is unique. -/
theorem AtDistance.unique (h : AtDistance R a m b) (h' : AtDistance R a n b) : m = n := by
  have hmn : ¬m < n := fun hlt => h'.shortest m hlt h.steps
  have hnm : ¬n < m := fun hlt => h.shortest n hlt h'.steps
  omega

/-- Within a distance is at one that is no greater. -/
theorem within_iff : Within R a n b ↔ ∃ m ≤ n, AtDistance R a m b := by
  constructor
  · intro h
    obtain ⟨m, hm, hs⟩ := h
    obtain ⟨k, hk, hd⟩ := hs.exists_atDistance
    exact ⟨k, hk.trans hm, hd⟩
  · intro h
    obtain ⟨m, hm, hd⟩ := h
    exact ⟨m, hm, hd.steps⟩

/-- Within a further step is what was within before, or is at its distance. -/
theorem within_succ : Within R a (n + 1) b ↔ Within R a n b ∨ AtDistance R a (n + 1) b := by
  simp only [within_iff]
  constructor
  · intro h
    obtain ⟨m, hm, hd⟩ := h
    by_cases hmn : m ≤ n
    · exact Or.inl ⟨m, hmn, hd⟩
    · obtain rfl : m = n + 1 := by omega
      exact Or.inr hd
  · intro h
    obtain ⟨m, hm, hd⟩ | hd := h
    · exact ⟨m, by omega, hd⟩
    · exact ⟨n + 1, le_rfl, hd⟩

/-- The next layer: successors of the last one that were not reached before. -/
theorem atDistance_succ : AtDistance R a (n + 1) c ↔
    (∃ b, AtDistance R a n b ∧ R b c) ∧ ¬Within R a n c := by
  constructor
  · intro h
    obtain ⟨b, hs, hr⟩ := steps_succ.mp h.steps
    have hb : AtDistance R a n b := by
      refine ⟨hs, fun m hm hm' => h.shortest (m + 1) (by omega) ?_⟩
      exact hm'.snoc hr
    refine ⟨⟨b, hb, hr⟩, fun hw => ?_⟩
    obtain ⟨m, hm, hs'⟩ := hw
    exact h.shortest m (by omega) hs'
  · intro h
    obtain ⟨⟨b, hb, hr⟩, hw⟩ := h
    exact ⟨hb.steps.snoc hr, fun m hm hs => hw ⟨m, by omega, hs⟩⟩

/-- Beyond an empty layer every layer is empty. -/
theorem not_atDistance_of_le (h : ∀ b, ¬AtDistance R a n b) (hmn : n ≤ m) :
    ∀ b, ¬AtDistance R a m b := by
  induction m, hmn using Nat.le_induction with
  | base => exact h
  | succ m _ ih =>
    intro c hc
    obtain ⟨⟨b, hb, -⟩, -⟩ := atDistance_succ.mp hc
    exact ih b hb

/-- Distances are no larger than the number of nodes that are reached. -/
theorem length_le_ncard_reachable (hfin : {b | b ≠ a ∧ ∃ n, Steps R a n b}.Finite)
    (h : ∀ k < n, ∃ b, AtDistance R a k b) : n ≤ {b | b ≠ a ∧ ∃ n, Steps R a n b}.ncard + 1 := by
  have : Nonempty α := ⟨a⟩
  choose! node hnode using h
  have hle : (Set.Ico 1 n).ncard ≤ {b | b ≠ a ∧ ∃ n, Steps R a n b}.ncard := by
    refine Set.ncard_le_ncard_of_injOn node ?_ ?_ hfin
    · intro k hk
      refine ⟨fun heq => ?_, k, (hnode k hk.2).steps⟩
      exact (hnode k hk.2).shortest 0 hk.1 (steps_zero.mpr heq)
    · intro k hk k' hk' heq
      exact (hnode k hk.2).unique (heq ▸ hnode k' hk'.2)
  rw [Set.ncard_eq_toFinset_card'] at hle
  simp only [Set.toFinset_Ico, Nat.card_Ico] at hle
  omega

/-- Walks of a length in a window reach exactly the nodes at a distance in the window, unless
one of them is also closer than the window. -/
theorem exists_steps_iff_of_no_shortcut {lo hi : ℕ}
    (h : ∀ m < lo, ¬Steps R a m b) :
    (∃ n, lo ≤ n ∧ n ≤ hi ∧ Steps R a n b) ↔ ∃ n, lo ≤ n ∧ n ≤ hi ∧ AtDistance R a n b := by
  constructor
  · intro hw
    obtain ⟨n, hlo, hhi, hs⟩ := hw
    obtain ⟨m, hm, hd⟩ := hs.exists_atDistance
    have hle : ¬m < lo := fun hlt => h m hlt hd.steps
    exact ⟨m, by omega, by omega, hd⟩
  · intro hw
    obtain ⟨n, hlo, hhi, hd⟩ := hw
    exact ⟨n, hlo, hhi, hd.steps⟩

end Walk
