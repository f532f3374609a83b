import Mathlib

/-!
# Saturation

A family of monotone rules over a set of facts, and the least set that contains given
facts and is closed under the active rules. A set squeezed between the given facts and
that closure is the closure as soon as it is closed itself. Rules whose conclusions hold
in the models of their premises derive only what holds in every model of the facts.
-/

namespace Saturation

variable {ι α : Type*}

/-- What each rule concludes from a set of facts. -/
structure Rules (ι α : Type*) where
  concl : ι → Set α → Set α
  mono : ∀ i, Monotone (concl i)

namespace Rules

variable (R : Rules ι α)

/-- The given facts and what the active rules conclude in one round. -/
def round (active : Set ι) (F : Set α) : Set α →o Set α where
  toFun G := F ∪ ⋃ i ∈ active, R.concl i G
  monotone' G H h := by
    refine Set.union_subset_union_right F (Set.iUnion₂_mono fun i _ => ?_)
    exact R.mono i h

/-- The least set that contains the given facts and is closed under the active rules. -/
def closure (active : Set ι) (F : Set α) : Set α := (R.round active F).lfp

/-- No active rule leaves the set. -/
def Closed (active : Set ι) (G : Set α) : Prop := ∀ i ∈ active, R.concl i G ⊆ G

variable {R} {active : Set ι} {F G : Set α}

/-- The closure holds what it starts from. -/
theorem subset_closure : F ⊆ R.closure active F := by
  intro f hf
  rw [closure, ← OrderHom.map_lfp]
  exact Or.inl hf

/-- Nothing more can be concluded from it. -/
theorem closed_closure : R.Closed active (R.closure active F) := by
  intro i hi f hf
  rw [closure, ← OrderHom.map_lfp]
  exact Or.inr (Set.mem_iUnion₂.mpr ⟨i, hi, hf⟩)

/-- The closure is contained in every closed set that contains the given facts. -/
theorem closure_subset (hF : F ⊆ G) (hG : R.Closed active G) : R.closure active F ⊆ G := by
  apply OrderHom.lfp_le
  exact Set.union_subset hF (Set.iUnion₂_subset hG)

/-- A closed set between the given facts and their closure is the closure. -/
theorem eq_closure (hF : F ⊆ G) (hG : R.Closed active G) (hle : G ⊆ R.closure active F) :
    G = R.closure active F :=
  Set.Subset.antisymm hle (closure_subset hF hG)

/-- A fact that no active rule concludes is in the closure only if it is given. -/
theorem mem_closure_of_underived {f : α} (h : ∀ i ∈ active, ∀ G, f ∉ R.concl i G) :
    f ∈ R.closure active F ↔ f ∈ F := by
  refine ⟨fun hf => ?_, fun hf => subset_closure hf⟩
  by_contra hnot
  have hclosed : R.Closed active {f}ᶜ := by
    rintro i hi g hg rfl
    exact h i hi _ hg
  exact closure_subset (Set.subset_compl_singleton_iff.mpr hnot) hclosed hf rfl

/-- One rule after another, each on what the ones before it left. -/
def sweep (R : Rules ι α) (rules : List ι) (F : Set α) : Set α :=
  rules.foldl (fun F i => F ∪ R.concl i F) F

@[simp] theorem sweep_nil : R.sweep [] F = F := rfl

@[simp] theorem sweep_cons (i : ι) (rules : List ι) :
    R.sweep (i :: rules) F = R.sweep rules (F ∪ R.concl i F) := rfl

/-- Two lists of rules sweep one after the other. -/
theorem sweep_append (rules rules' : List ι) :
    R.sweep (rules ++ rules') F = R.sweep rules' (R.sweep rules F) := List.foldl_append

/-- A sweep keeps what is there. -/
theorem subset_sweep (rules : List ι) : F ⊆ R.sweep rules F := by
  induction rules generalizing F with
  | nil => exact subset_rfl
  | cons i rules ih => exact Set.subset_union_left.trans ih

/-- A sweep contains what each of its rules concludes. -/
theorem concl_subset_sweep {rules : List ι} {i : ι} (hi : i ∈ rules) :
    R.concl i F ⊆ R.sweep rules F := by
  induction rules generalizing F with
  | nil => cases hi
  | cons j rules ih =>
    obtain rfl | hi := List.mem_cons.mp hi
    · exact Set.subset_union_right.trans (subset_sweep rules)
    · exact (R.mono i Set.subset_union_left).trans (ih hi)

/-- A sweep of rules that do not leave a set does not leave it. -/
theorem sweep_subset {rules : List ι} (hF : F ⊆ G) (hG : ∀ i ∈ rules, R.concl i G ⊆ G) :
    R.sweep rules F ⊆ G := by
  induction rules generalizing F with
  | nil => exact hF
  | cons i rules ih =>
    refine ih (Set.union_subset hF ?_) fun j hj => hG j (List.mem_cons_of_mem i hj)
    exact (R.mono i hF).trans (hG i List.mem_cons_self)

end Rules

variable {μ : Type*} {sat : μ → α → Prop} {m : μ} {F G : Set α}

/-- A model satisfies every fact of a set. -/
def Satisfies (sat : μ → α → Prop) (m : μ) (F : Set α) : Prop := ∀ f ∈ F, sat m f

theorem Satisfies.mono (h : Satisfies sat m G) (hFG : F ⊆ G) : Satisfies sat m F :=
  fun f hf => h f (hFG hf)

/-- A model of the facts satisfies what sound rules derive from them. -/
theorem Satisfies.closure {R : Rules ι α} {active : Set ι}
    (hsound : ∀ i ∈ active, ∀ F, Satisfies sat m F → Satisfies sat m (R.concl i F))
    (h : Satisfies sat m F) : Satisfies sat m (R.closure active F) := by
  refine Rules.closure_subset (G := {f | sat m f}) h fun i hi => ?_
  exact hsound i hi _ fun f hf => hf

end Saturation
