import Mathlib

/-!
# Machines in lockstep

A machine answers calls and changes its state. If a relation between the states of two
machines survives every call, and related states answer alike, the machines give the same
answers to every sequence of calls. A machine that passes its calls on to another one, and
the answers back, does so for every sequence.
-/

variable {σ τ κ α β ω : Type*}

/-- The answers to a sequence of calls. -/
def replies (call : σ → κ → α × σ) : σ → List κ → List α
  | _, [] => []
  | s, k :: ks => (call s k).1 :: replies call (call s k).2 ks

/-- The state behind a sequence of calls. -/
def after (call : σ → κ → α × σ) : σ → List κ → σ
  | s, [] => s
  | s, k :: ks => after call (call s k).2 ks

theorem after_concat (call : σ → κ → α × σ) (s : σ) (ks : List κ) (k : κ) :
    after call s (ks ++ [k]) = (call (after call s ks) k).2 := by
  induction ks generalizing s with
  | nil => rfl
  | cons a ks ih => exact ih (call s a).2

/-- Related states answer a call alike and stay related. -/
def Lockstep (R : σ → τ → Prop) (call : σ → κ → α × σ) (other : τ → κ → α × τ) : Prop :=
  ∀ s t k, R s t → (call s k).1 = (other t k).1 ∧ R (call s k).2 (other t k).2

/-- Machines in lockstep give the same answers. -/
theorem Lockstep.replies_eq {R : σ → τ → Prop} {call : σ → κ → α × σ} {other : τ → κ → α × τ}
    (h : Lockstep R call other) {s : σ} {t : τ} (hst : R s t) (ks : List κ) :
    replies call s ks = replies other t ks := by
  induction ks generalizing s t with
  | nil => rfl
  | cons k ks ih =>
    obtain ⟨hanswer, hnext⟩ := h s t k hst
    rw [replies, replies, hanswer, ih hnext]

/-- A machine passes calls on and answers back, wherever the condition on calls is met in a state
with the invariant. -/
structure Relays (P : σ → Prop) (Q : ω → Prop) (call : σ → κ → α × σ) (passed : ω → κ)
    (back : α → β)
    (other : σ → ω → β × σ) : Prop where
  step : ∀ s w, P s → Q w → other s w = (back (call s (passed w)).1, (call s (passed w)).2)
  preserved : ∀ s w, P s → Q w → P (call s (passed w)).2

/-- The invariant holds behind every sequence of calls that are passed on. -/
theorem Relays.invariant {P : σ → Prop} {Q : ω → Prop} {call : σ → κ → α × σ} {passed : ω → κ}
    {back : α → β} {other : σ → ω → β × σ} (h : Relays P Q call passed back other) {s : σ}
    (hs : P s)
    {ws : List ω} (hws : ∀ w ∈ ws, Q w) : P (after other s ws) := by
  induction ws generalizing s with
  | nil => exact hs
  | cons w ws ih =>
    have hw : Q w := hws w List.mem_cons_self
    have hnext := h.preserved s w hs hw
    rw [after, h.step s w hs hw]
    exact ih hnext fun v hv => hws v (List.mem_cons_of_mem w hv)
