import Mathlib

/-!
# Streams that arrive in parts

A stream is cut into non-empty parts of bounded size. Whatever is found in the stream is found
as soon as enough of it has arrived. A limit that is only tested between parts is exact up to
one item; beyond, it depends on the cuts whether a part jumps over it.
-/

variable {α : Type*}

/-- The offset at which a pattern first occurs. -/
def findInfix [BEq α] (pattern : List α) (l : List α) : Option Nat :=
  l.tails.findIdx? pattern.isPrefixOf

section Find

variable [BEq α] [LawfulBEq α] {pattern front back l : List α} {i : Nat}

/-- A pattern is found where it first occurs. -/
theorem findInfix_eq_some_iff : findInfix pattern l = some i ↔
    i ≤ l.length ∧ pattern <+: l.drop i ∧ ∀ j < i, ¬pattern <+: l.drop j := by
  rw [findInfix, List.findIdx?_eq_some_iff_getElem]
  simp only [List.getElem_tails, List.isPrefixOf_iff_prefix, List.length_tails]
  constructor
  · intro h
    obtain ⟨hlt, hprefix, hfirst⟩ := h
    exact ⟨Nat.le_of_lt_succ hlt, hprefix, hfirst⟩
  · intro h
    obtain ⟨hle, hprefix, hfirst⟩ := h
    exact ⟨Nat.lt_succ_of_le hle, hprefix, hfirst⟩

theorem findInfix_le (h : findInfix pattern l = some i) : i + pattern.length ≤ l.length := by
  obtain ⟨hle, hprefix, -⟩ := findInfix_eq_some_iff.mp h
  have hlength := hprefix.length_le
  rw [List.length_drop] at hlength
  omega

/-- A pattern that occurs stays where it first occurs when more arrives. -/
theorem findInfix_append (h : findInfix pattern front = some i) :
    findInfix pattern (front ++ back) = some i := by
  have hend := findInfix_le h
  obtain ⟨hle, hprefix, hfirst⟩ := findInfix_eq_some_iff.mp h
  refine findInfix_eq_some_iff.mpr ⟨?_, ?_, fun j hj hearlier => hfirst j hj ?_⟩
  · rw [List.length_append]
    omega
  · rw [List.drop_append_of_le_length hle]
    exact hprefix.trans (List.prefix_append _ _)
  · rw [List.drop_append_of_le_length (by omega)] at hearlier
    exact List.prefix_of_prefix_length_le hearlier (List.prefix_append _ _)
      (by rw [List.length_drop]; omega)

/-- A pattern is found as soon as all of it has arrived. -/
theorem findInfix_front (h : findInfix pattern (front ++ back) = some i)
    (hend : i + pattern.length ≤ front.length) : findInfix pattern front = some i := by
  obtain ⟨-, hprefix, hfirst⟩ := findInfix_eq_some_iff.mp h
  refine findInfix_eq_some_iff.mpr ⟨by omega, ?_, fun j hj hearlier => hfirst j hj ?_⟩
  · rw [List.drop_append_of_le_length (by omega)] at hprefix
    exact List.prefix_of_prefix_length_le hprefix (List.prefix_append _ _)
      (by rw [List.length_drop]; omega)
  · rw [List.drop_append_of_le_length (by omega)]
    exact hearlier.trans (List.prefix_append _ _)

end Find

/-- A list in non-empty parts of at most so many items. -/
structure Cuts (size : Nat) (whole : List α) (parts : List (List α)) : Prop where
  flatten : parts.flatten = whole
  bounds : ∀ part ∈ parts, part ≠ [] ∧ part.length ≤ size

namespace Cuts

variable {size : Nat} {front back : List α} {parts others : List (List α)}

/-- One piece that is not too long is a cut. -/
theorem single (hne : front ≠ []) (hle : front.length ≤ size) : Cuts size front [front] := by
  refine ⟨List.flatten_singleton, fun part hpart => ?_⟩
  obtain rfl := List.mem_singleton.mp hpart
  exact ⟨hne, hle⟩

/-- Cuts of two parts are a cut of the whole. -/
theorem append (h : Cuts size front parts) (hback : Cuts size back others) :
    Cuts size (front ++ back) (parts ++ others) := by
  refine ⟨by rw [List.flatten_append, h.flatten, hback.flatten], fun part hpart => ?_⟩
  rcases List.mem_append.mp hpart with hpart | hpart
  · exact h.bounds part hpart
  · exact hback.bounds part hpart

/-- Every list can be cut into single items. -/
theorem singles (hsize : 0 < size) (l : List α) : Cuts size l (l.map fun a => [a]) := by
  refine ⟨by simp [← List.flatMap_def], fun part hpart => ?_⟩
  obtain ⟨a, -, rfl⟩ := List.mem_map.mp hpart
  exact ⟨List.cons_ne_nil a [], hsize⟩

end Cuts

/-- After none of the parts there is more than the limit but less than what is waited for. -/
def Clears (limit goal : Nat) : Nat → List (List α) → Prop
  | _, [] => True
  | n, part :: parts =>
    (limit < n + part.length → goal ≤ n + part.length) ∧ Clears limit goal (n + part.length) parts

section Limits

variable {limit goal size : Nat} {parts others : List (List α)} {n : Nat}

/-- Pieces clear a limit one part after the other. -/
theorem clears_append : Clears limit goal n (parts ++ others) ↔
    Clears limit goal n parts ∧ Clears limit goal (n + parts.flatten.length) others := by
  induction parts generalizing n with
  | nil => simp [Clears]
  | cons part parts ih =>
    rw [List.cons_append, Clears, Clears, ih, List.flatten_cons, List.length_append, and_assoc,
      Nat.add_assoc]

/-- What holds between two parts. -/
theorem Clears.between (h : Clears limit goal n (parts ++ others)) (hn : n ≤ limit)
    (hlimit : limit < n + parts.flatten.length) : goal ≤ n + parts.flatten.length := by
  induction parts generalizing n with
  | nil =>
    rw [List.flatten_nil, List.length_nil] at hlimit
    omega
  | cons part parts ih =>
    rw [List.flatten_cons, List.length_append] at hlimit ⊢
    rw [List.cons_append, Clears] at h
    by_cases hpart : limit < n + part.length
    · have hgoal := h.1 hpart
      omega
    · have hgoal := ih h.2 (by omega) (by omega)
      omega

/-- A goal within the limit, or one item beyond, is never missed. -/
theorem clears_of_goal_le (h : goal ≤ limit + 1) : Clears limit goal n parts := by
  induction parts generalizing n with
  | nil => trivial
  | cons part parts ih => exact ⟨fun hlimit => by omega, ih⟩

/-- What stays below the limit clears it. -/
theorem clears_of_le (h : n + parts.flatten.length ≤ limit) : Clears limit goal n parts := by
  induction parts generalizing n with
  | nil => trivial
  | cons part parts ih =>
    rw [List.flatten_cons, List.length_append] at h
    exact ⟨fun hlimit => by omega, ih (by omega)⟩

/-- What has reached the goal clears it. -/
theorem clears_of_reached (h : goal ≤ n) : Clears limit goal n parts := by
  induction parts generalizing n with
  | nil => trivial
  | cons part parts ih => exact ⟨fun _ => by omega, ih (by omega)⟩

/-- A goal more than one part beyond the limit is always missed. -/
theorem not_clears_of_lt (hgoal : limit + size < goal) (hn : n ≤ limit)
    (hparts : ∀ part ∈ parts, part.length ≤ size) (h : goal ≤ n + parts.flatten.length) :
    ¬Clears limit goal n parts := by
  induction parts generalizing n with
  | nil =>
    rw [List.flatten_nil, List.length_nil] at h
    omega
  | cons part parts ih =>
    intro hclears
    have hpart := hparts part List.mem_cons_self
    rw [List.flatten_cons, List.length_append] at h
    by_cases hlimit : limit < n + part.length
    · have hgoal' := hclears.1 hlimit
      omega
    · exact ih (by omega) (fun p hp => hparts p (List.mem_cons_of_mem part hp)) (by omega) hclears.2

/-- A goal up to one part beyond the limit is reached in one jump from the limit. -/
theorem cuts_jump {whole : List α} (hlimit : limit + 1 < goal) (hwithin : goal ≤ limit + size)
    (hgoal : goal ≤ whole.length) (hsize : 0 < size) :
    ∃ parts, Cuts size whole parts ∧ Clears limit goal 0 parts := by
  have hwhole : whole.take limit ++ ((whole.take goal).drop limit ++ whole.drop goal) = whole := by
    have htake : whole.take limit = (whole.take goal).take limit := by
      rw [List.take_take, Nat.min_eq_left (by omega)]
    rw [htake, ← List.append_assoc, List.take_append_drop, List.take_append_drop]
  have hfront : (whole.take limit).length = limit := by
    rw [List.length_take]
    omega
  have hjump : ((whole.take goal).drop limit).length = goal - limit := by
    rw [List.length_drop, List.length_take]
    omega
  have hsingle : Cuts size ((whole.take goal).drop limit) [(whole.take goal).drop limit] :=
    Cuts.single (List.ne_nil_of_length_pos (by omega)) (by omega)
  have hcuts := (Cuts.singles hsize (whole.take limit)).append
    (hsingle.append (Cuts.singles hsize (whole.drop goal)))
  rw [hwhole] at hcuts
  refine ⟨_, hcuts, clears_append.mpr ⟨clears_of_le ?_, ?_⟩⟩
  · rw [(Cuts.singles hsize _).flatten]
    omega
  · rw [(Cuts.singles hsize _).flatten]
    exact ⟨fun _ => by omega, clears_of_reached (by omega)⟩

/-- All ways of cutting a list agree on whether the goal is reached, exactly when the goal is
at most one item beyond the limit, or more than one part. -/
theorem clears_agree_iff {whole : List α} (hgoal : goal ≤ whole.length) (hsize : 0 < size) :
    (∀ parts others, Cuts size whole parts → Cuts size whole others →
      (Clears limit goal 0 parts ↔ Clears limit goal 0 others)) ↔
    goal ≤ limit + 1 ∨ limit + size < goal := by
  constructor
  · intro hagree
    by_contra hwindow
    -- One way jumps from the limit to the goal, the other one stops right behind the limit.
    have hlimit : limit + 1 < goal ∧ goal ≤ limit + size := by omega
    have hjumps : ∃ parts, Cuts size whole parts ∧ Clears limit goal 0 parts :=
      cuts_jump hlimit.1 hlimit.2 hgoal hsize
    have hstops : ¬Clears limit goal 0 (whole.map fun a => [a]) := by
      have hsingles : whole.map (fun a => [a]) =
          (whole.take (limit + 1)).map (fun a => [a]) ++
            (whole.drop (limit + 1)).map fun a => [a] := by
        rw [← List.map_append, List.take_append_drop]
      have hlength : ((whole.take (limit + 1)).map fun a => [a]).flatten.length = limit + 1 := by
        rw [(Cuts.singles hsize _).flatten, List.length_take]
        omega
      intro hclears
      rw [hsingles] at hclears
      have hreached := hclears.between (Nat.zero_le _) (by omega)
      omega
    obtain ⟨parts, hparts, hclears⟩ := hjumps
    exact hstops ((hagree parts _ hparts (Cuts.singles hsize whole)).mp hclears)
  · intro hwindow parts others hparts hothers
    rcases hwindow with hle | hlt
    · exact iff_of_true (clears_of_goal_le hle) (clears_of_goal_le hle)
    · have hmissed : ∀ ps, Cuts size whole ps → ¬Clears limit goal 0 ps := by
        intro ps hps
        refine not_clears_of_lt hlt (Nat.zero_le _) (fun part hpart => (hps.bounds part hpart).2) ?_
        rw [hps.flatten]
        omega
      exact iff_of_false (hmissed parts hparts) (hmissed others hothers)

end Limits
