import Mathlib

/-!
# Debug texts

What `{:?}` prints for a string, for an optional string and for a list of strings. Quotes and
backslashes in a string are escaped, so the printed text of an optional string determines it, also
behind a colon.
-/

namespace AtomrOntology

/-- The characters that `{:?}` writes by their code point: those that are not printable and those
that extend a grapheme. -/
class DebugEscapes where
  escapes : Char → Bool

/-- Escapes for running the model: none but those that are always there. -/
abbrev DebugEscapes.plain : DebugEscapes := ⟨fun _ => false⟩

namespace Debug

/-- The characters with an escape of their own. -/
def named : List (Char × Char) :=
  [('\x00', '0'), ('\t', 't'), ('\r', 'r'), ('\n', 'n'), ('"', '"'), ('\\', '\\')]

variable [DebugEscapes]

/-- `char::escape_debug_ext`, as it is called for a character of a string. -/
def escapeChar (c : Char) : List Char :=
  match named.lookup c with
  | some e => ['\\', e]
  | none =>
    if DebugEscapes.escapes c then ['\\', 'u', '\x7b'] ++ (Nat.toDigits 16 c.toNat ++ ['\x7d'])
    else [c]

/-- The characters of a string between its quotes. -/
def escaped (s : List Char) : List Char := s.flatMap escapeChar

/-- The characters of an optional string. -/
def optionChars : Option String → List Char
  | none => ['N', 'o', 'n', 'e']
  | some s => ['S', 'o', 'm', 'e', '(', '"'] ++ (escaped s.toList ++ ['"', ')'])

/-- An optional string. -/
def option (g : Option String) : String := .ofList (optionChars g)

/-- A list of strings. -/
def strings (xs : List String) : String :=
  "[" ++ ", ".intercalate (xs.map fun s => "\"" ++ String.ofList (escaped s.toList) ++ "\"") ++ "]"

omit [DebugEscapes] in
/-- Hexadecimal digits stand for numbers below sixteen. -/
theorem mem_toDigits {n : Nat} {c : Char} (h : c ∈ Nat.toDigits 16 n) :
    ∃ d, d < 16 ∧ c = d.digitChar := by
  induction n using Nat.strong_induction_on with
  | _ n ih =>
    rw [Nat.toDigits_eq_if (by decide)] at h
    split at h
    · next hlt => exact ⟨n, hlt, List.mem_singleton.mp h⟩
    · next hle =>
      rcases List.mem_append.mp h with h | h
      · exact ih (n / 16) (by omega) h
      · exact ⟨n % 16, by omega, List.mem_singleton.mp h⟩

omit [DebugEscapes] in
/-- Different digits are written differently. -/
theorem digitChar_injective {d e : Nat} (hd : d < 16) (he : e < 16)
    (h : d.digitChar = e.digitChar) : d = e := by
  have hall : ∀ d < 16, ∀ e < 16, d.digitChar = e.digitChar → d = e := by decide
  exact hall d hd e he h

omit [DebugEscapes] in
/-- Different numbers are written differently. -/
theorem toDigits_injective {m n : Nat} (h : Nat.toDigits 16 m = Nat.toDigits 16 n) : m = n := by
  induction m using Nat.strong_induction_on generalizing n with
  | _ m ih =>
    rw [Nat.toDigits_eq_if (by decide), Nat.toDigits_eq_if (by decide) (n := n)] at h
    split at h
    · next hm =>
      split at h
      · next hn => exact digitChar_injective hm hn (List.singleton_inj.mp h)
      · have hlength := congrArg List.length h
        rw [List.length_append] at hlength
        have hpos := @Nat.length_toDigits_pos 16 (n / 16)
        simp only [List.length_singleton] at hlength
        omega
    · next hm =>
      split at h
      · have hlength := congrArg List.length h
        rw [List.length_append] at hlength
        have hpos := @Nat.length_toDigits_pos 16 (m / 16)
        simp only [List.length_singleton] at hlength
        omega
      · obtain ⟨hfront, hlast⟩ := List.append_inj' h rfl
        have hdiv := ih (m / 16) (by omega) hfront
        have hmod := digitChar_injective (by omega) (by omega) (List.singleton_inj.mp hlast)
        omega

omit [DebugEscapes] in
/-- Digits are neither braces nor quotes. -/
theorem closing_not_mem_toDigits (n : Nat) :
    '\x7d' ∉ Nat.toDigits 16 n ∧ '"' ∉ Nat.toDigits 16 n := by
  have hall : ∀ d < 16, '\x7d' ≠ d.digitChar ∧ '"' ≠ d.digitChar := by decide
  constructor
  · intro h
    obtain ⟨d, hd, hc⟩ := mem_toDigits h
    exact (hall d hd).1 hc
  · intro h
    obtain ⟨d, hd, hc⟩ := mem_toDigits h
    exact (hall d hd).2 hc

omit [DebugEscapes] in
/-- A short escape is one of the listed ones. -/
theorem mem_named {c e : Char} (h : named.lookup c = some e) : (c, e) ∈ named := by
  obtain ⟨before, after, hnamed, -⟩ := List.lookup_eq_some_iff.mp h
  rw [hnamed]
  exact List.mem_append_right _ List.mem_cons_self

omit [DebugEscapes] in
/-- Short escapes are different. -/
theorem named_injective {c d e : Char} (hc : named.lookup c = some e)
    (hd : named.lookup d = some e) :
    c = d := by
  have hall : ∀ p ∈ named, ∀ q ∈ named, p.2 = q.2 → p.1 = q.1 := by decide
  exact hall _ (mem_named hc) _ (mem_named hd) rfl

/-- A character is written by name, by its code point, or as it is. -/
theorem escapeChar_cases (c : Char) :
    (∃ e, named.lookup c = some e ∧ escapeChar c = ['\\', e]) ∨
    (escapeChar c = ['\\', 'u', '\x7b'] ++ (Nat.toDigits 16 c.toNat ++ ['\x7d'])) ∨
    (c ≠ '\\' ∧ c ≠ '"' ∧ escapeChar c = [c]) := by
  cases h : named.lookup c with
  | some e => exact Or.inl ⟨e, rfl, by rw [escapeChar, h]⟩
  | none =>
    right
    by_cases hescapes : DebugEscapes.escapes c = true
    · left
      simp only [escapeChar, h, hescapes, ↓reduceIte]
    · right
      refine ⟨?_, ?_, ?_⟩
      · rintro rfl
        exact absurd h (by decide)
      · rintro rfl
        exact absurd h (by decide)
      · simp only [escapeChar, h, hescapes, Bool.false_eq_true, ↓reduceIte]

omit [DebugEscapes] in
/-- None of them starts like an escaped code point. -/
theorem named_ne {c e : Char} (h : named.lookup c = some e) : e ≠ 'u' := by
  have hall : ∀ p ∈ named, p.2 ≠ 'u' := by decide
  exact hall _ (mem_named h)

/-- The escapes of two characters can be told apart, whatever follows. -/
theorem escapeChar_prefixFree {c d : Char} {r u : List Char}
    (h : escapeChar c ++ r = escapeChar d ++ u) : c = d ∧ r = u := by
  obtain ⟨e, hc, he⟩ | he | ⟨hslash, -, he⟩ := escapeChar_cases c
  · obtain ⟨e', hd, he'⟩ | he' | ⟨hslash', -, he'⟩ := escapeChar_cases d
    · rw [he, he'] at h
      obtain ⟨rfl, rfl⟩ : e = e' ∧ r = u := by simpa using h
      exact ⟨named_injective hc hd, rfl⟩
    · rw [he, he'] at h
      exact absurd (List.cons.inj (List.cons.inj h).2).1 (named_ne hc)
    · rw [he, he'] at h
      exact absurd (List.cons.inj h).1.symm hslash'
  · obtain ⟨e', hd, he'⟩ | he' | ⟨hslash', -, he'⟩ := escapeChar_cases d
    · rw [he, he'] at h
      exact absurd (List.cons.inj (List.cons.inj h).2).1.symm (named_ne hd)
    · rw [he, he'] at h
      have hdigits :
        Nat.toDigits 16 c.toNat ++ '\x7d' :: r = Nat.toDigits 16 d.toNat ++ '\x7d' :: u := by
        simpa using h
      have hspan : ∀ {n : Nat} {rest : List Char},
          (Nat.toDigits 16 n ++ '\x7d' :: rest).takeWhile (· ≠ '\x7d') = Nat.toDigits 16 n := by
        intro n rest
        rw [List.takeWhile_append_of_pos]
        · simp
        · intro c hc
          refine decide_eq_true fun heq => (closing_not_mem_toDigits n).1 ?_
          rwa [heq] at hc
      have hcode : Nat.toDigits 16 c.toNat = Nat.toDigits 16 d.toNat := by
        rw [← @hspan c.toNat r, hdigits, hspan]
      rw [hcode] at hdigits
      exact ⟨Char.toNat_inj.mp (toDigits_injective hcode),
        (List.cons.inj (List.append_cancel_left hdigits)).2⟩
    · rw [he, he'] at h
      exact absurd (List.cons.inj h).1.symm hslash'
  · obtain ⟨e', hd, he'⟩ | he' | ⟨hslash', -, he'⟩ := escapeChar_cases d
    · rw [he, he'] at h
      exact absurd (List.cons.inj h).1 hslash
    · rw [he, he'] at h
      exact absurd (List.cons.inj h).1 hslash
    · rw [he, he'] at h
      exact List.cons.inj h

/-- No character vanishes. -/
theorem escapeChar_ne_nil (c : Char) : escapeChar c ≠ [] := by
  obtain ⟨e, -, he⟩ | he | ⟨-, -, he⟩ := escapeChar_cases c <;> simp [he]

/-- Texts are told apart by how they are escaped. -/
theorem escaped_injective : Function.Injective escaped := by
  intro s t h
  induction s generalizing t with
  | nil =>
    cases t with
    | nil => rfl
    | cons d t => exact absurd (List.append_eq_nil_iff.mp h.symm).1 (escapeChar_ne_nil d)
  | cons c s ih =>
    cases t with
    | nil => exact absurd (List.append_eq_nil_iff.mp h).1 (escapeChar_ne_nil c)
    | cons d t =>
      obtain ⟨rfl, hrest⟩ := escapeChar_prefixFree
        (h : escapeChar c ++ escaped s = escapeChar d ++ escaped t)
      rw [ih hrest]

/-- No escaped text starts with a quote. -/
theorem head?_escaped (s : List Char) : (escaped s).head? ≠ some '"' := by
  cases s with
  | nil => simp [escaped]
  | cons c s =>
    obtain ⟨e, -, he⟩ | he | ⟨-, hquote, he⟩ := escapeChar_cases c
    · simp [escaped, he]
    · simp [escaped, he]
    · simpa [escaped, he] using hquote

/-- A quote of the written string has a backslash before it. -/
theorem escaped_quote {s x y : List Char} {a : Char} (h : escaped s = x ++ a :: '"' :: y) :
    a = '\\' := by
  induction s generalizing x with
  | nil => simp [escaped] at h
  | cons c s ih =>
    have happend : escapeChar c ++ escaped s = x ++ a :: '"' :: y := h
    rw [List.append_eq_append_iff] at happend
    obtain ⟨m, rfl, hm⟩ | ⟨m, hx, hm⟩ := happend
    · exact ih hm
    · cases m with
      | nil => exact @ih [] hm.symm
      | cons b m =>
        obtain ⟨rfl, htail⟩ := List.cons.inj hm
        cases m with
        | nil => exact absurd (congrArg List.head? htail.symm) (head?_escaped s)
        | cons b' m =>
          obtain rfl := (List.cons.inj htail).1
          obtain ⟨e, -, he⟩ | he | ⟨-, -, he⟩ := escapeChar_cases c
          · rw [he] at hx
            cases x with
            | nil => exact (List.cons.inj hx).1.symm
            | cons x xs =>
              have hlength := congrArg List.length hx
              simp only [List.length_append, List.length_cons, List.length_nil] at hlength
              omega
          · have hmem : '"' ∈ escapeChar c := by simp [hx]
            rw [he] at hmem
            simp [(closing_not_mem_toDigits c.toNat).2] at hmem
          · rw [he] at hx
            have hlength := congrArg List.length hx
            simp only [List.length_append, List.length_cons, List.length_nil] at hlength
            omega

/-- Optional texts are told apart. -/
theorem option_injective : Function.Injective option := by
  intro g g' h
  have hchars : optionChars g = optionChars g' := String.ofList_inj.mp h
  cases g with
  | none =>
    cases g' with
    | none => rfl
    | some t => cases hchars
  | some s =>
    cases g' with
    | none => cases hchars
    | some t =>
      have hrest := List.append_cancel_left hchars
      rw [String.toList_inj.mp (escaped_injective (List.append_cancel_right hrest))]

/-- No optional string is printed as a text that ends in a colon and an optional string. -/
theorem optionChars_ne_append (g g' : Option String) (m : List Char) :
    optionChars g ≠ m ++ ':' :: optionChars g' := by
  intro h
  cases g with
  | none =>
    have hmem : ':' ∈ optionChars none := by
      rw [h]
      exact List.mem_append_right _ List.mem_cons_self
    exact absurd hmem (by simp [optionChars])
  | some s =>
    cases g' with
    | none =>
      have hlast := congrArg (fun cs => cs.reverse.head?) h
      simp [optionChars] at hlast
    | some t =>
      have hopened : ['S', 'o', 'm', 'e', '(', '"'] ++ escaped s.toList =
          m ++ ([':', 'S', 'o', 'm', 'e'] ++ '(' :: '"' :: escaped t.toList) := by
        apply @List.append_cancel_right _ _ ['"', ')']
        rw [List.append_assoc]
        refine Eq.trans (h : _ = _) ?_
        simp [optionChars]
      rw [List.append_eq_append_iff] at hopened
      obtain ⟨m', -, hm⟩ | ⟨m', hm, hrest⟩ := hopened
      · rw [← List.append_assoc] at hm
        exact absurd (escaped_quote hm) (by decide)
      · cases m' with
        | nil =>
          have hquote := @escaped_quote _ s.toList [':', 'S', 'o', 'm', 'e'] _ '(' hrest.symm
          exact absurd hquote (by decide)
        | cons c m' =>
          obtain rfl := (List.cons.inj hrest).1
          have hmem : ':' ∈ ['S', 'o', 'm', 'e', '(', '"'] := by
            rw [hm]
            exact List.mem_append_right _ List.mem_cons_self
          exact absurd hmem (by decide)

end Debug

end AtomrOntology
