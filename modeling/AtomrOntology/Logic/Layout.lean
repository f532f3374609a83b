import AtomrOntology.Logic.Printing

/-!
# Printed token lists with a stricter layout

A condition on what follows the tokens of a text splits the texts that print them: it holds of
every token, or there is a first one of which it does not. What reads tokens of which the
condition always holds reads both kinds of texts in the same way.
-/

namespace Lexis

variable {τ : Type*} {L : Lexis τ} {t : τ} {ts : List τ} {text rest : List Char}
  {Q : τ → List τ → List Char → Prop}

/-- A text starts with a token. -/
def Next (L : Lexis τ) (t : τ) (text rest : List Char) : Prop :=
  ∃ s, text.dropWhile L.blank = s ++ rest ∧ L.Spelled t s ∧ L.Ends t rest

/-- The texts that print some tokens such that the condition holds of each token, the tokens
after it and the text after it. -/
inductive Laid (L : Lexis τ) (Q : τ → List τ → List Char → Prop) : List τ → List Char → Prop
  | nil {gap : List Char} (hgap : ∀ c ∈ gap, L.blank c = true) : Laid L Q [] gap
  | cons {t : τ} {ts : List τ} {gap s rest : List Char} (hgap : ∀ c ∈ gap, L.blank c = true)
    (hs : L.Spelled t s) (hends : L.Ends t rest) (hlayout : Q t ts rest)
    (hrest : Laid L Q ts rest) : Laid L Q (t :: ts) (gap ++ (s ++ rest))

/-- The texts that print some tokens such that the condition fails of one, but of none before. -/
inductive Breaks (L : Lexis τ) (Q : τ → List τ → List Char → Prop) : List τ → List Char → Prop
  | here {t : τ} {ts : List τ} {gap s rest : List Char} (hgap : ∀ c ∈ gap, L.blank c = true)
    (hs : L.Spelled t s) (hends : L.Ends t rest) (hlayout : ¬Q t ts rest)
    (hrest : L.Printed ts rest) : Breaks L Q (t :: ts) (gap ++ (s ++ rest))
  | there {t : τ} {ts : List τ} {gap s rest : List Char} (hgap : ∀ c ∈ gap, L.blank c = true)
    (hs : L.Spelled t s) (hends : L.Ends t rest) (hlayout : Q t ts rest)
    (hrest : Breaks L Q ts rest) : Breaks L Q (t :: ts) (gap ++ (s ++ rest))

/-- A printed text meets a condition between its tokens everywhere, or there is a first token after
which it does not. -/
theorem Printed.laid_or_breaks (h : L.Printed ts text) (Q : τ → List τ → List Char → Prop) :
    L.Laid Q ts text ∨ L.Breaks Q ts text := by
  induction h with
  | nil hgap => exact Or.inl (.nil hgap)
  | @cons t ts gap s rest hgap hs hends hrest ih =>
    by_cases hlayout : Q t ts rest
    · exact ih.imp (.cons hgap hs hends hlayout) (.there hgap hs hends hlayout)
    · exact Or.inr (.here hgap hs hends hlayout hrest)

/-- A relation between tokens and texts that is read token by token, apart from some tokens. -/
structure Reading (L : Lexis τ) (plain : τ → Prop) (R : List τ → List Char → Prop) : Prop where
  printed : ∀ {ts text}, R ts text → L.Printed ts text
  next : ∀ {t ts text}, plain t → R (t :: ts) text → ∃ rest, L.Next t text rest ∧ R ts rest
  skip : ∀ {ts text}, R ts text → R ts (text.dropWhile L.blank)

/-- The first token of a printed text is next. -/
theorem Printed.next_token (h : L.Printed (t :: ts) text) :
    ∃ rest, L.Next t text rest ∧ L.Printed ts rest := by
  obtain ⟨s, rest, hskip, hs, hends, hrest⟩ := h.next
  exact ⟨rest, ⟨s, hskip, hs, hends⟩, hrest⟩

/-- A laid out text is a printed one. -/
theorem Laid.printed (h : L.Laid Q ts text) : L.Printed ts text := by
  induction h with
  | nil hgap => exact .nil hgap
  | cons hgap hs hends hlayout hrest ih => exact .cons hgap hs hends ih

/-- In a laid out text the first token is followed as the condition says. -/
theorem Laid.next (h : L.Laid Q (t :: ts) text) :
    ∃ rest, L.Next t text rest ∧ Q t ts rest ∧ L.Laid Q ts rest := by
  cases h with
  | cons hgap hs hends hlayout hrest =>
    exact ⟨_, ⟨_, dropWhile_blank hgap hs, hs, hends⟩, hlayout, hrest⟩

/-- Blanks in front do not matter. -/
theorem Laid.skip (h : L.Laid Q ts text) : L.Laid Q ts (text.dropWhile L.blank) := by
  cases h with
  | nil hgap =>
    rw [List.dropWhile_eq_nil_iff.mpr hgap]
    exact .nil (by simp)
  | cons hgap hs hends hlayout hrest =>
    rw [dropWhile_blank hgap hs]
    exact @Laid.cons _ L Q _ _ [] _ _ (by simp) hs hends hlayout hrest

/-- A text that breaks the condition is a printed one. -/
theorem Breaks.printed (h : L.Breaks Q ts text) : L.Printed ts text := by
  induction h with
  | here hgap hs hends hlayout hrest => exact .cons hgap hs hends hrest
  | there hgap hs hends hlayout hrest ih => exact .cons hgap hs hends ih

/-- The condition fails of the first token or later. -/
theorem Breaks.next (h : L.Breaks Q (t :: ts) text) : ∃ rest, L.Next t text rest ∧
    ((¬Q t ts rest ∧ L.Printed ts rest) ∨ (Q t ts rest ∧ L.Breaks Q ts rest)) := by
  cases h with
  | here hgap hs hends hlayout hrest =>
    exact ⟨_, ⟨_, dropWhile_blank hgap hs, hs, hends⟩, Or.inl ⟨hlayout, hrest⟩⟩
  | there hgap hs hends hlayout hrest =>
    exact ⟨_, ⟨_, dropWhile_blank hgap hs, hs, hends⟩, Or.inr ⟨hlayout, hrest⟩⟩

/-- Blanks before the tokens do not matter. -/
theorem Breaks.skip (h : L.Breaks Q ts text) : L.Breaks Q ts (text.dropWhile L.blank) := by
  cases h with
  | here hgap hs hends hlayout hrest =>
    rw [dropWhile_blank hgap hs]
    exact @Breaks.here _ L Q _ _ [] _ _ (by simp) hs hends hlayout hrest
  | there hgap hs hends hlayout hrest =>
    rw [dropWhile_blank hgap hs]
    exact @Breaks.there _ L Q _ _ [] _ _ (by simp) hs hends hlayout hrest

variable {plain : τ → Prop}

/-- Printed texts can be read token by token. -/
theorem reading_printed : L.Reading plain L.Printed where
  printed h := h
  next _ h := h.next_token
  skip h := h.skip

/-- So can laid out ones. -/
theorem reading_laid : L.Reading plain (L.Laid Q) where
  printed h := h.printed
  next _ h := by
    obtain ⟨rest, hnext, -, hrest⟩ := h.next
    exact ⟨rest, hnext, hrest⟩
  skip h := h.skip

/-- So can those that break the condition, if it holds after every plain token. -/
theorem reading_breaks (hplain : ∀ t ts rest, plain t → Q t ts rest) :
    L.Reading plain (L.Breaks Q) where
  printed h := h.printed
  next ht h := by
    obtain ⟨rest, hnext, ⟨hlayout, -⟩ | ⟨-, hrest⟩⟩ := h.next
    · exact absurd (hplain _ _ _ ht) hlayout
    · exact ⟨rest, hnext, hrest⟩
  skip h := h.skip

/-- After blanks, a text starts as its tokens do. -/
theorem Reading.starts {R : List τ → List Char → Prop} {P : Char → Prop}
    (hR : L.Reading plain R) (h : R ts text) (hstarts : L.Starts P ts) :
    ∀ c ∈ (text.dropWhile L.blank).head?, P c :=
  (hR.printed h).starts hstarts

end Lexis
