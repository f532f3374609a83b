import Mathlib

/-!
# Brackets and strings

A text with brackets is read from left to right; what stands in quotes counts for nothing. A text is
closed if all brackets and quotes are. A bracket that closes at the very end leaves every shorter
beginning open.
-/

namespace Brackets

/-- What a character of a text is for. -/
inductive Mark where
  | quote
  | escape
  | opening
  | closing
  | other
deriving DecidableEq, Repr

/-- The open brackets, and whether the reader is in a string, and behind an escape in it. -/
structure Scan where
  depth : Nat
  quoted : Bool
  escaped : Bool
deriving DecidableEq, Repr

/-- Outside of strings. -/
def Scan.outside (depth : Nat) : Scan := ⟨depth, false, false⟩

/-- Inside of a string. -/
def Scan.inside (depth : Nat) : Scan := ⟨depth, true, false⟩

/-- Read a mark. -/
def Scan.step (s : Scan) (m : Mark) : Scan :=
  if s.quoted then
    if s.escaped then { s with escaped := false }
    else match m with
      | .quote => { s with quoted := false }
      | .escape => { s with escaped := true }
      | _ => s
  else match m with
    | .quote => { s with quoted := true }
    | .opening => { s with depth := s.depth + 1 }
    | .closing => { s with depth := s.depth - 1 }
    | _ => s

/-- Read some marks. -/
def Scan.run (s : Scan) (ms : List Mark) : Scan := ms.foldl Scan.step s

theorem run_append (s : Scan) (ms ns : List Mark) : s.run (ms ++ ns) = (s.run ms).run ns :=
  List.foldl_append

/-- There is something, and all of it is closed. -/
def Closed (ms : List Mark) : Prop := ms ≠ [] ∧ (Scan.outside 0).run ms = .outside 0

/-- From a state of any depth back to it, and never below. -/
def Returns (s : Nat → Scan) (ms : List Mark) : Prop :=
  ∀ d, (s d).run ms = s d ∧ ∀ n, d ≤ ((s d).run (ms.take n)).depth

/-- Balanced outside of strings. -/
abbrev Neutral : List Mark → Prop := Returns .outside

/-- A part of a string. -/
abbrev Content : List Mark → Prop := Returns .inside

variable {s : Nat → Scan} {ms ns : List Mark}

theorem Returns.nil (hs : ∀ d, (s d).depth = d) : Returns s [] := fun d =>
  ⟨rfl, fun n => by rw [List.take_nil]; exact (hs d).ge⟩

theorem Returns.append (hm : Returns s ms) (hn : Returns s ns) : Returns s (ms ++ ns) := by
  intro d
  refine ⟨by rw [run_append, (hm d).1, (hn d).1], fun n => ?_⟩
  rw [List.take_append, run_append]
  rcases Nat.le_total n ms.length with hle | hle
  · rw [Nat.sub_eq_zero_of_le hle, List.take_zero]
    exact (hm d).2 n
  · rw [List.take_of_length_le hle, (hm d).1]
    exact (hn d).2 _

/-- A mark that changes nothing. -/
theorem Returns.single {m : Mark} (hs : ∀ d, (s d).depth = d) (h : ∀ d, (s d).step m = s d) :
    Returns s [m] := by
  refine fun d => ⟨h d, fun n => ?_⟩
  cases n with
  | zero => exact (hs d).ge
  | succ n =>
    rw [List.take_succ_cons, List.take_nil]
    exact ((congrArg Scan.depth (h d)).trans (hs d)).ge

/-- Marks that mean nothing are neutral. -/
theorem Neutral.others (h : ∀ m ∈ ms, m = .other) : Neutral ms := by
  induction ms with
  | nil => exact Returns.nil fun _ => rfl
  | cons m ms ih =>
    rw [List.forall_mem_cons] at h
    obtain ⟨rfl, h⟩ := h
    exact Returns.append (Returns.single (fun _ => rfl) fun _ => rfl) (ih h)

/-- In a string only quotes and escapes mean something. -/
theorem Content.plain (h : ∀ m ∈ ms, m ≠ .quote ∧ m ≠ .escape) : Content ms := by
  induction ms with
  | nil => exact Returns.nil fun _ => rfl
  | cons m ms ih =>
    rw [List.forall_mem_cons] at h
    obtain ⟨⟨hquote, hescape⟩, h⟩ := h
    have hsingle : Content [m] := by
      refine Returns.single (fun _ => rfl) fun d => ?_
      cases m with
      | quote => exact absurd rfl hquote
      | escape => exact absurd rfl hescape
      | opening => rfl
      | closing => rfl
      | other => rfl
    exact Returns.append hsingle (ih h)

/-- What is escaped means nothing. -/
theorem Content.escaped (m : Mark) : Content [.escape, m] := by
  refine fun d => ⟨rfl, fun n => ?_⟩
  match n with
  | 0 => exact Nat.le_refl d
  | 1 => exact Nat.le_refl d
  | n + 2 =>
    rw [List.take_of_length_le (Nat.le_add_left 2 n)]
    exact Nat.le_refl d

theorem length_between (a b : Mark) (ms : List Mark) :
    (a :: ms ++ [b]).length = ms.length + 2 := by
  rw [List.length_append, List.length_cons, List.length_singleton]

/-- What stands between two marks, and leads back to the state behind the first one. -/
theorem take_between (a b : Mark) (ms : List Mark) (n : Nat) :
    (a :: ms ++ [b]).take n = [] ∨ (∃ k ≤ ms.length, (a :: ms ++ [b]).take n = a :: ms.take k ∧
      n = k + 1) ∨ ms.length + 2 ≤ n := by
  cases n with
  | zero => exact Or.inl rfl
  | succ k =>
    rcases Nat.lt_or_ge ms.length k with hlt | hle
    · exact Or.inr (Or.inr (by omega))
    · refine Or.inr (Or.inl ⟨k, hle, ?_, rfl⟩)
      rw [List.cons_append, List.take_succ_cons, List.take_append_of_le_length hle]

/-- A string. -/
theorem Neutral.quoted (h : Content ms) : Neutral (.quote :: ms ++ [.quote]) := by
  intro d
  have hall : (Scan.outside d).run (.quote :: ms ++ [.quote]) = .outside d := by
    rw [run_append]
    exact congrArg (Scan.run · [.quote]) (h d).1
  refine ⟨hall, fun n => ?_⟩
  rcases take_between .quote .quote ms n with hnil | ⟨k, -, hk, -⟩ | hlong
  · rw [hnil]
    exact Nat.le_refl d
  · rw [hk]
    exact (h d).2 k
  · rw [List.take_of_length_le ((length_between _ _ ms).trans_le hlong), hall]
    exact Nat.le_refl d

/-- Brackets around a neutral text. -/
theorem Neutral.bracketed (h : Neutral ms) : Neutral (.opening :: ms ++ [.closing]) := by
  intro d
  have hall : (Scan.outside d).run (.opening :: ms ++ [.closing]) = .outside d := by
    rw [run_append]
    exact congrArg (Scan.run · [.closing]) (h (d + 1)).1
  refine ⟨hall, fun n => ?_⟩
  rcases take_between .opening .closing ms n with hnil | ⟨k, -, hk, -⟩ | hlong
  · rw [hnil]
    exact Nat.le_refl d
  · rw [hk]
    exact Nat.le_of_succ_le ((h (d + 1)).2 k)
  · rw [List.take_of_length_le ((length_between _ _ ms).trans_le hlong), hall]
    exact Nat.le_refl d

/-- A text in brackets is closed, and no shorter beginning of it is. -/
theorem closed_take_iff (h : Neutral ms) (n : Nat) :
    Closed ((Mark.opening :: ms ++ [Mark.closing]).take n) ↔ ms.length + 2 ≤ n := by
  constructor
  · rintro ⟨hne, hclosed⟩
    rcases take_between .opening .closing ms n with hnil | ⟨k, -, hk, -⟩ | hlong
    · exact absurd hnil hne
    · -- the bracket that was opened first is still open
      have hopen : 1 ≤ ((Scan.outside 1).run (ms.take k)).depth := (h 1).2 k
      rw [hk] at hclosed
      have hdepth : ((Scan.outside 1).run (ms.take k)).depth = 0 := congrArg Scan.depth hclosed
      omega
    · exact hlong
  · intro hlong
    rw [List.take_of_length_le ((length_between _ _ ms).trans_le hlong)]
    exact ⟨List.cons_ne_nil _ _, (h.bracketed 0).1⟩

end Brackets
