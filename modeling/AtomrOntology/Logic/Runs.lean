import Mathlib

/-!
# Conditions on the calls of a run

A machine changes its state with every call. What a call must meet may depend on the state it meets.
Two conditions agree on whole runs if they agree wherever an invariant holds that the calls
preserve.
-/

variable {σ κ : Type*} {next : σ → κ → σ} {P C : σ → κ → Prop} {I Q : σ → Prop} {s : σ}
  {ks : List κ}

/-- Every call of a sequence meets a condition in the state it finds. -/
def EachCall (next : σ → κ → σ) (P : σ → κ → Prop) (s : σ) (ks : List κ) : Prop :=
  ∀ before k after, ks = before ++ k :: after → P (before.foldl next s) k

/-- Every state of a run has a property, the first one included. -/
def EachState (next : σ → κ → σ) (Q : σ → Prop) (s : σ) (ks : List κ) : Prop :=
  ∀ before after, ks = before ++ after → Q (before.foldl next s)

/-- Without calls there is nothing to show. -/
theorem eachCall_nil : EachCall next P s [] := by
  intro before k after h
  cases before <;> cases h

/-- A run is a first call and a run of the others. -/
theorem eachCall_cons {k : κ} :
    EachCall next P s (k :: ks) ↔ P s k ∧ EachCall next P (next s k) ks := by
  constructor
  · intro h
    refine ⟨h [] k ks rfl, fun before a after hks => ?_⟩
    exact h (k :: before) a after (by rw [hks, List.cons_append])
  · intro h before a after hks
    cases before with
    | nil =>
      obtain ⟨rfl, -⟩ := List.cons.inj hks
      exact h.1
    | cons b before =>
      obtain ⟨rfl, htail⟩ := List.cons.inj hks
      exact h.2 before a after htail

/-- Conditions that agree under an invariant agree on runs that preserve it. -/
theorem eachCall_congr (hI : I s) (heq : ∀ s, ∀ k ∈ ks, I s → (P s k ↔ C s k))
    (hnext : ∀ s, ∀ k ∈ ks, I s → C s k → I (next s k)) :
    EachCall next P s ks ↔ EachCall next C s ks := by
  induction ks generalizing s with
  | nil => exact iff_of_true eachCall_nil eachCall_nil
  | cons k ks ih =>
    rw [eachCall_cons, eachCall_cons, heq s k List.mem_cons_self hI]
    refine and_congr_right fun hk => ih (hnext s k List.mem_cons_self hI hk) ?_ ?_
    · exact fun t a ha => heq t a (List.mem_cons_of_mem k ha)
    · exact fun t a ha => hnext t a (List.mem_cons_of_mem k ha)

/-- Beyond the first state, every state is one that a call leads to. -/
theorem eachState_iff :
    EachState next Q s ks ↔ Q s ∧ EachCall next (fun s k => Q (next s k)) s ks := by
  constructor
  · intro h
    refine ⟨h [] ks rfl, fun before k after hks => ?_⟩
    have hnext := h (before ++ [k]) after (by simp [hks])
    rwa [List.foldl_append] at hnext
  · intro h before after hks
    cases before using List.reverseRecOn with
    | nil => exact h.1
    | append_singleton before k =>
      rw [List.foldl_append]
      exact h.2 before k after (by simp [hks])
