import Mathlib

/-!
# Printed token lists

A text prints a list of tokens if it spells one after the other with blank characters in
between, or none where the text after a token cannot be taken for more of it. A reader that
skips what is blank meets the tokens one by one.
-/

/-- The tokens of a language: how they may be spelled, and what may follow directly. No
spelling is empty or starts with a blank. -/
structure Lexis (τ : Type*) where
  blank : Char → Bool
  Spelled : τ → List Char → Prop
  Ends : τ → List Char → Prop
  ink : ∀ {t s}, Spelled t s → ∃ c cs, s = c :: cs ∧ blank c = false

namespace Lexis

variable {τ : Type*} {L : Lexis τ} {t : τ} {ts : List τ} {gap s text rest : List Char}
  {P : Char → Prop}

/-- The texts that print some tokens. -/
inductive Printed (L : Lexis τ) : List τ → List Char → Prop
  | nil {gap : List Char} (hgap : ∀ c ∈ gap, L.blank c = true) : Printed L [] gap
  | cons {t : τ} {ts : List τ} {gap s rest : List Char} (hgap : ∀ c ∈ gap, L.blank c = true)
    (hs : L.Spelled t s) (hends : L.Ends t rest) (hrest : Printed L ts rest) :
    Printed L (t :: ts) (gap ++ (s ++ rest))

/-- Every spelling of the first token starts with such a character. -/
def Starts (L : Lexis τ) (P : Char → Prop) (ts : List τ) : Prop :=
  ∀ t ∈ ts.head?, ∀ c cs, L.Spelled t (c :: cs) → P c

/-- Without tokens there is nothing to start. -/
@[simp] theorem starts_nil : L.Starts P [] := by
  intro t ht
  cases ht

/-- A list of tokens starts as the first one does. -/
@[simp] theorem starts_cons : L.Starts P (t :: ts) ↔ ∀ c cs, L.Spelled t (c :: cs) → P c := by
  constructor
  · intro h
    exact h t rfl
  · intro h t' ht'
    obtain rfl := Option.some.inj ht'
    exact h

/-- The first token is found after the gap. -/
theorem dropWhile_blank (hgap : ∀ c ∈ gap, L.blank c = true) (hs : L.Spelled t s) :
    (gap ++ (s ++ rest)).dropWhile L.blank = s ++ rest := by
  obtain ⟨c, cs, rfl, hc⟩ := L.ink hs
  rw [List.dropWhile_append_of_pos hgap, List.cons_append, List.dropWhile_cons, hc]
  rfl

/-- After what is blank comes the first token. -/
theorem Printed.next (h : L.Printed (t :: ts) text) :
    ∃ s rest, text.dropWhile L.blank = s ++ rest ∧ L.Spelled t s ∧ L.Ends t rest ∧
      L.Printed ts rest := by
  cases h with
  | cons hgap hs hends hrest => exact ⟨_, _, dropWhile_blank hgap hs, hs, hends, hrest⟩

/-- After the last token everything is blank. -/
theorem Printed.done (h : L.Printed [] text) : text.dropWhile L.blank = [] := by
  cases h with
  | nil hgap => exact List.dropWhile_eq_nil_iff.mpr hgap

/-- Skipping what is blank leaves the same tokens. -/
theorem Printed.skip (h : L.Printed ts text) : L.Printed ts (text.dropWhile L.blank) := by
  cases h with
  | nil hgap =>
    rw [List.dropWhile_eq_nil_iff.mpr hgap]
    exact .nil (by simp)
  | cons hgap hs hends hrest =>
    rw [dropWhile_blank hgap hs]
    exact @Printed.cons _ L _ _ [] _ _ (by simp) hs hends hrest

/-- No token is spelled without a character. -/
theorem Printed.length_le (h : L.Printed ts text) : ts.length ≤ text.length := by
  induction h with
  | nil => exact Nat.zero_le _
  | cons hgap hs hends hrest ih =>
    obtain ⟨c, cs, rfl, -⟩ := L.ink hs
    simp only [List.length_append, List.length_cons]
    omega

/-- Lists that are not empty are together as many as they are. -/
theorem length_le_flatMap {α : Type*} {f : α → List τ} (hf : ∀ a, f a ≠ []) (as : List α) :
    as.length ≤ (as.flatMap f).length := by
  induction as with
  | nil => exact le_rfl
  | cons a as ih =>
    have hpos := List.length_pos_of_ne_nil (hf a)
    rw [List.flatMap_cons, List.length_append, List.length_cons]
    omega

/-- A text is long enough for the parts it prints. -/
theorem Printed.length_parts_le {α : Type*} {f : α → List τ} (hf : ∀ a, f a ≠ []) {as : List α}
    (h : L.Printed (as.flatMap f ++ ts) text) : as.length ≤ text.length := by
  have hle := length_le_flatMap hf as
  have hlen := h.length_le
  rw [List.length_append] at hlen
  omega

/-- Tokens that start so are followed by others that do. -/
theorem Starts.append {us : List τ} (ht : L.Starts P ts) (hu : L.Starts P us) :
    L.Starts P (ts ++ us) := by
  cases ts with
  | nil => exact hu
  | cons t ts => exact ht

/-- After blanks, a printed text starts as its tokens do. -/
theorem Printed.starts (h : L.Printed ts text) (hstarts : L.Starts P ts) :
    ∀ c ∈ (text.dropWhile L.blank).head?, P c := by
  intro c hc
  cases ts with
  | nil =>
    rw [h.done] at hc
    cases hc
  | cons t ts =>
    obtain ⟨s, rest, hskip, hs, -, -⟩ := h.next
    obtain ⟨d, cs, rfl, -⟩ := L.ink hs
    rw [hskip] at hc
    obtain rfl := Option.some.inj hc
    exact hstarts t rfl _ _ hs

/-- The text itself starts with a blank or with the first token. -/
theorem Printed.head (h : L.Printed ts text) (hstarts : L.Starts P ts) :
    ∀ c ∈ text.head?, L.blank c = true ∨ P c := by
  intro c hc
  cases text with
  | nil => cases hc
  | cons d cs =>
    obtain rfl := Option.some.inj hc
    by_cases hblank : L.blank d = true
    · exact Or.inl hblank
    · have hdrop : (d :: cs).dropWhile L.blank = d :: cs := by
        rw [List.dropWhile_cons, if_neg hblank]
      exact Or.inr (h.starts hstarts d (by rw [hdrop]; rfl))

end Lexis

variable {p : Char → Bool} {token rest : List Char}

/-- Nothing is taken if the first one is not. -/
theorem List.takeWhile_of_head (h : ∀ c ∈ rest.head?, p c = false) : rest.takeWhile p = [] := by
  cases rest with
  | nil => rfl
  | cons c rest => simp [h c rfl]

/-- Nothing is dropped if the first one is not. -/
theorem List.dropWhile_of_head (h : ∀ c ∈ rest.head?, p c = false) : rest.dropWhile p = rest := by
  cases rest with
  | nil => rfl
  | cons c rest => simp [h c rfl]

/-- A token is taken up to where it ends. -/
theorem List.takeWhile_token (h : ∀ c ∈ token, p c = true) (hrest : ∀ c ∈ rest.head?, p c = false) :
    (token ++ rest).takeWhile p = token := by
  rw [List.takeWhile_append_of_pos h, List.takeWhile_of_head hrest, List.append_nil]

/-- What is left is what follows it. -/
theorem List.dropWhile_token (h : ∀ c ∈ token, p c = true) (hrest : ∀ c ∈ rest.head?, p c = false) :
    (token ++ rest).dropWhile p = rest := by
  rw [List.dropWhile_append_of_pos h, List.dropWhile_of_head hrest]
