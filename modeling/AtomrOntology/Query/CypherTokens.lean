import AtomrOntology.Query.CypherGrammar
import AtomrOntology.Rdf.Lines

/-!
# The parser reads tokens

What the Cypher parser returns for a printed token. It returns what the token stands for, except
that a string literal is read byte by byte.
-/

namespace AtomrOntology

namespace Cypher

open Sparql (isIdentStart isIdentContinue tryKeyword)

/-- Names do not start with a blank. -/
theorem not_blank_of_isIdentStart {c : Char} (h : isIdentStart c = true) :
    isAsciiWhitespace c = false := by
  by_contra hc
  rw [Bool.not_eq_false] at hc
  simp only [isAsciiWhitespace, Bool.or_eq_true, beq_iff_eq] at hc
  rcases hc with (((rfl | rfl) | rfl) | rfl) | rfl <;> revert h <;> decide

/-- Digits are not blanks. -/
theorem not_blank_of_isAsciiDigit {c : Char} (h : isAsciiDigit c = true) :
    isAsciiWhitespace c = false := by
  by_contra hc
  rw [Bool.not_eq_false] at hc
  simp only [isAsciiWhitespace, Bool.or_eq_true, beq_iff_eq] at hc
  rcases hc with (((rfl | rfl) | rfl) | rfl) | rfl <;> revert h <;> decide

theorem isIdentContinue_of_isAsciiDigit {c : Char} (h : isAsciiDigit c = true) :
    isIdentContinue c = true := by
  rw [isIdentContinue, h, Bool.or_true]

/-- A letter in any case is a letter. -/
theorem isAsciiAlpha_of_toAsciiLower {c : Char} (h : isAsciiAlpha (toAsciiLower c) = true) :
    isAsciiAlpha c = true := by
  unfold toAsciiLower at h
  split at h
  · next hc =>
    simp only [isAsciiAlpha, hc, Bool.or_true]
  · exact h

theorem isIdentStart_of_isAsciiAlpha {c : Char} (h : isAsciiAlpha c = true) :
    isIdentStart c = true := by
  rw [isIdentStart, h, Bool.or_true]

theorem isAsciiDigit_of_isAsciiAlpha {c : Char} (h : isAsciiAlpha c = true) :
    isAsciiDigit c = false := by
  by_contra hc
  rw [Bool.not_eq_false, isAsciiDigit, Bool.and_eq_true, decide_eq_true_eq, decide_eq_true_eq] at hc
  simp only [isAsciiAlpha, Bool.or_eq_true, Bool.and_eq_true, decide_eq_true_eq] at h
  rcases h with h | h
  · exact absurd (h.1.trans hc.2) (by decide)
  · exact absurd (h.1.trans hc.2) (by decide)

/-- A word spelled in any case starts with its own first letter. -/
theorem anyCase_cons {k : Char} {ks s : List Char} (hk : isAsciiAlpha (toAsciiLower k) = true)
    (h : s.map toAsciiLower = (k :: ks).map toAsciiLower) :
    ∃ c cs, s = c :: cs ∧ toAsciiLower c = toAsciiLower k ∧ isAsciiAlpha c = true := by
  obtain ⟨c, cs, rfl, hc, -⟩ := List.map_eq_cons_iff.mp h
  exact ⟨c, cs, rfl, hc, isAsciiAlpha_of_toAsciiLower (hc ▸ hk)⟩

/-- The first letter of a keyword in lower case. -/
def Keyword.initial : Keyword → Char
  | .match => 'm'
  | .where => 'w'
  | .not => 'n'
  | .return => 'r'
  | .limit => 'l'
  | .isTrue => 't'
  | .isFalse => 'f'

/-- Keywords start with a letter. -/
theorem Keyword.isAsciiAlpha_initial (kw : Keyword) : isAsciiAlpha kw.initial = true := by
  cases kw <;> rfl

/-- A keyword has an initial. -/
theorem Keyword.text_cons (kw : Keyword) :
    ∃ k ks, kw.text.toList = k :: ks ∧ toAsciiLower k = kw.initial := by
  cases kw <;> exact ⟨_, _, rfl, rfl⟩

/-- However a keyword is spelled, it starts with its initial. -/
theorem Keyword.spelled_cons {kw : Keyword} {s : List Char}
    (h : s.map toAsciiLower = kw.text.toList.map toAsciiLower) :
    ∃ c cs, s = c :: cs ∧ toAsciiLower c = kw.initial ∧ isAsciiAlpha c = true := by
  obtain ⟨k, ks, hkw, hk⟩ := kw.text_cons
  rw [hkw] at h
  rw [← hk]
  exact anyCase_cons (hk ▸ kw.isAsciiAlpha_initial) h

/-- A number has a first digit. -/
theorem IsDecimal.cons {n : Nat} {digits : List Char} (h : IsDecimal n digits) :
    ∃ c cs, digits = c :: cs ∧ isAsciiDigit c = true := by
  cases digits with
  | nil => exact absurd rfl h.nonempty
  | cons c cs => exact ⟨c, cs, rfl, h.ofDigits c List.mem_cons_self⟩

/-- A name has a first character, and others that go on. -/
theorem IsIdent.cons {chars : List Char} (h : IsIdent chars) :
    ∃ c cs, chars = c :: cs ∧ isIdentStart c = true ∧ ∀ d ∈ cs, isIdentContinue d = true := by
  cases chars with
  | nil => exact h.elim
  | cons c cs => exact ⟨c, cs, rfl, h⟩

/-- A spelled token starts with something else than a blank. -/
theorem Token.Spelled.ink {t : Token} {s : List Char} (h : t.Spelled s) :
    ∃ c cs, s = c :: cs ∧ isAsciiWhitespace c = false := by
  cases h with
  | name i =>
    obtain ⟨c, cs, hi, hc, -⟩ := i.valid.cons
    exact ⟨c, cs, hi, not_blank_of_isIdentStart hc⟩
  | keyword h =>
    obtain ⟨c, cs, rfl, -, hc⟩ := Keyword.spelled_cons h
    exact ⟨c, cs, rfl, not_blank_of_isIdentStart (isIdentStart_of_isAsciiAlpha hc)⟩
  | natural h =>
    obtain ⟨c, cs, rfl, hc⟩ := h.cons
    exact ⟨c, cs, rfl, not_blank_of_isAsciiDigit hc⟩
  | positive h =>
    obtain ⟨c, cs, rfl, hc⟩ := h.cons
    exact ⟨c, cs, rfl, not_blank_of_isAsciiDigit hc⟩
  | negative h => exact ⟨_, _, rfl, by decide⟩
  | string h => exact ⟨_, _, rfl, by decide⟩
  | mark m => cases m <;> exact ⟨_, _, rfl, by decide⟩

/-- The tokens of the Cypher subset. -/
def lexis : Lexis Token := ⟨isAsciiWhitespace, Token.Spelled, Token.Ends, Token.Spelled.ink⟩

variable {ts us : List Token} {text : List Char}

/-- What succeeded goes on. -/
theorem ok_bind {ε α β : Type} (a : α) (f : α → Except ε β) :
    (Except.ok a : Except ε α) >>= f = f a := rfl

/-- A printed mark is found after blanks. -/
theorem mark_next {m : Mark} (h : lexis.Printed (.mark m :: ts) text) :
    ∃ rest, skipWs text = m.chars ++ rest ∧ lexis.Printed ts rest := by
  obtain ⟨s, rest, hskip, hs, -, hrest⟩ := h.next
  cases hs
  exact ⟨rest, hskip, hrest⟩

/-- A printed mark of one character is the one expected. -/
theorem expectChar_printed {m : Mark} {c : Char} (hm : m.chars = [c])
    (h : lexis.Printed (.mark m :: ts) text) :
    ∃ rest, expectChar c text = .ok rest ∧ lexis.Printed ts rest := by
  obtain ⟨rest, hskip, hrest⟩ := mark_next h
  rw [hm] at hskip
  exact ⟨rest, by simp only [expectChar, hskip, List.singleton_append, if_true], hrest⟩

/-- A keyword is recognized however it is spelled, if no name goes on after it. -/
theorem tryKeyword_spelled {kw : String} {s rest : List Char}
    (hs : s.map toAsciiLower = kw.toList.map toAsciiLower)
    (hends : ∀ c ∈ rest.head?, isIdentContinue c = false) :
    tryKeyword kw (s ++ rest) = some rest := by
  have hlen : s.length = kw.toList.length := by
    have := congrArg List.length hs
    simpa only [List.length_map] using this
  rw [tryKeyword, ← hlen, List.take_left, List.drop_left, if_pos hs]
  cases rest with
  | nil => rfl
  | cons c rest => simp only [hends c rfl, Bool.false_eq_true, if_false]

/-- A keyword is not found where its first letter is missing. -/
theorem tryKeyword_none {kw : Keyword} {cs : List Char}
    (h : ∀ c ∈ cs.head?, toAsciiLower c ≠ kw.initial) : tryKeyword kw.text cs = none := by
  obtain ⟨k, ks, hkw, hk⟩ := kw.text_cons
  rw [tryKeyword, hkw, if_neg]
  intro heq
  cases cs with
  | nil => cases heq
  | cons c cs =>
    rw [List.length_cons, List.take_succ_cons, List.map_cons, List.map_cons, hk] at heq
    exact h c rfl (List.cons.inj heq).1

/-- A printed keyword is found after blanks and recognized. -/
theorem keyword_next {kw : Keyword} (h : lexis.Printed (.keyword kw :: ts) text) :
    ∃ c cs rest, skipWs text = c :: cs ∧ toAsciiLower c = kw.initial ∧ isAsciiAlpha c = true ∧
      tryKeyword kw.text (c :: cs) = some rest ∧ lexis.Printed ts rest := by
  obtain ⟨s, rest, hskip, hs, hends, hrest⟩ := h.next
  cases hs with
  | keyword hs =>
    obtain ⟨c, cs, rfl, hc, halpha⟩ := Keyword.spelled_cons hs
    exact ⟨c, cs ++ rest, rest, hskip, hc, halpha, tryKeyword_spelled hs hends, hrest⟩

/-- A printed keyword is the one expected. -/
theorem expectKeyword_printed {kw : Keyword} (h : lexis.Printed (.keyword kw :: ts) text) :
    ∃ rest, expectKeyword kw.text text = .ok rest ∧ lexis.Printed ts rest := by
  obtain ⟨c, cs, rest, hskip, -, -, hkw, hrest⟩ := keyword_next h
  exact ⟨rest, by rw [expectKeyword, hskip, hkw], hrest⟩

/-- A printed name is found after blanks. -/
theorem name_next {i : Ident} (h : lexis.Printed (.name i :: ts) text) :
    ∃ c cs rest, skipWs text = c :: cs ++ rest ∧ i.chars = c :: cs ∧ isIdentStart c = true ∧
      (∀ d ∈ cs, isIdentContinue d = true) ∧ (∀ d ∈ rest.head?, isIdentContinue d = false) ∧
      lexis.Printed ts rest := by
  obtain ⟨s, rest, hskip, hs, hends, hrest⟩ := h.next
  cases hs
  obtain ⟨c, cs, hi, hc, hcs⟩ := i.valid.cons
  exact ⟨c, cs, rest, hi ▸ hskip, hi, hc, hcs, hends, hrest⟩

/-- A printed name is read. -/
theorem parseIdent_printed {i : Ident} (h : lexis.Printed (.name i :: ts) text) :
    ∃ rest, parseIdent text = .ok (i.text, rest) ∧ lexis.Printed ts rest := by
  obtain ⟨c, cs, rest, hskip, hi, hc, hcs, hends, hrest⟩ := name_next h
  refine ⟨rest, ?_, hrest⟩
  rw [parseIdent, hskip, List.cons_append]
  simp only [hc, if_true, List.takeWhile_token hcs hends, List.dropWhile_token hcs hends]
  rw [Ident.text, hi]

/-- No digit follows a number directly. -/
private theorem no_digit_of_ends {rest : List Char}
    (h : ∀ c ∈ rest.head?, isIdentContinue c = false) : ∀ c ∈ rest.head?,
    isAsciiDigit c = false := by
  intro c hc
  have hends := h c hc
  rw [isIdentContinue, Bool.or_eq_false_iff] at hends
  exact hends.2

/-- The digits of a printed number are found after blanks. -/
theorem natural_next {n : UInt64} (h : lexis.Printed (.natural n :: ts) text) :
    ∃ digits rest, skipWs text = digits ++ rest ∧ IsDecimal n.toNat digits ∧
      (∀ c ∈ rest.head?, isAsciiDigit c = false) ∧ lexis.Printed ts rest := by
  obtain ⟨s, rest, hskip, hs, hends, hrest⟩ := h.next
  cases hs with
  | natural hs => exact ⟨s, rest, hskip, hs, no_digit_of_ends hends, hrest⟩

/-- A printed number is read. -/
theorem parseUint_printed {n : UInt64} (h : lexis.Printed (.natural n :: ts) text) :
    ∃ rest, parseUint text = .ok (n, rest) ∧ lexis.Printed ts rest := by
  obtain ⟨digits, rest, hskip, hd, hends, hrest⟩ := natural_next h
  refine ⟨rest, ?_, hrest⟩
  have hne : digits.isEmpty = false := by
    simpa using hd.nonempty
  have hlt : n.toNat < 2 ^ 64 := n.toNat_lt
  simp only [parseUint, hskip, List.takeWhile_token hd.ofDigits hends,
    List.dropWhile_token hd.ofDigits hends, hne, hd.value, if_pos hlt, UInt64.ofNat_toNat,
    Bool.false_eq_true, if_false]

/-- A printed integer is read. -/
theorem parseInt_printed {i : Int64} (h : lexis.Printed (.integer i :: ts) text) :
    ∃ rest, parseInt text = .ok (i, rest) ∧ lexis.Printed ts rest := by
  obtain ⟨s, rest, hskip, hs, hends, hrest⟩ := h.next
  have hends := no_digit_of_ends hends
  have hrange : -2 ^ 63 ≤ i.toInt ∧ i.toInt < 2 ^ 63 := ⟨i.le_toInt, i.toInt_lt⟩
  refine ⟨rest, ?_, hrest⟩
  have hskip' : skipWs text = s ++ rest := hskip
  cases hs with
  | @positive i n digits hd hi =>
    obtain ⟨c, cs, rfl, hc⟩ := hd.cons
    have hhead : (c :: cs ++ rest).head? ≠ some '-' := by
      rintro heq
      obtain rfl := Option.some.inj heq
      revert hc
      decide
    rw [hi] at hrange
    simp only [parseInt, hskip', if_neg hhead, List.takeWhile_token hd.ofDigits hends,
      List.dropWhile_token hd.ofDigits hends, hd.value, List.isEmpty_cons, Bool.false_eq_true,
      if_false, if_pos hrange]
    rw [← hi, Int64.ofInt_toInt]
  | @negative i n digits hd hi =>
    have hhead : ('-' :: (digits ++ rest)).head? = some '-' := rfl
    have hne : digits.isEmpty = false := by
      simpa using hd.nonempty
    rw [hi] at hrange
    simp only [parseInt, hskip', if_pos hhead, List.cons_append, List.tail_cons,
      List.takeWhile_token hd.ofDigits hends, List.dropWhile_token hd.ofDigits hends, hd.value, hne,
      Bool.false_eq_true, if_false, if_pos hrange]
    rw [← hi, Int64.ofInt_toInt]

/-- The text that a string literal is taken for: every byte is a character of its own. -/
def misread (s : String) : String := .ofList (s.toList.flatMap bytesAsChars)

/-- The texts that are not misread are the ASCII texts. -/
theorem misread_eq_iff {s : String} : misread s = s ↔ ∀ c ∈ s.toList, c.toNat < 128 := by
  rw [misread, ← flatMap_bytesAsChars_iff, ← String.toList_inj, String.toList_ofList]

/-- A character of one byte is read as itself. -/
private theorem bytesAsChars_control {c : Char} (h : c.toNat < 128) (body : List Char) :
    bytesAsChars c ++ body = c :: body := by
  rw [bytesAsChars_of_ascii h]
  rfl

/-- The body of a literal is read byte by byte. -/
theorem literalBody_spelled {body s rest : List Char} (h : LiteralText body s) :
    literalBody (body ++ '"' :: rest) = .ok (s.flatMap bytesAsChars, rest) := by
  induction h with
  | nil => rfl
  | @plain c body s hquote hescape h ih =>
    rw [List.cons_append, literalBody, ih]
    · rfl
    · exact hquote
    · exact fun hc _ => hescape hc
    · exact fun _ _ hc _ => hescape hc
  | quote h ih =>
    rw [List.cons_append, List.cons_append, literalBody, ih]
    rfl
  | backslash h ih =>
    rw [List.cons_append, List.cons_append, literalBody, ih]
    rfl
  | newline h ih =>
    rw [List.cons_append, List.cons_append, literalBody, ih, List.flatMap_cons,
      bytesAsChars_control (by decide)]
    rfl
  | tab h ih =>
    rw [List.cons_append, List.cons_append, literalBody, ih, List.flatMap_cons,
      bytesAsChars_control (by decide)]
    rfl
  | «return» h ih =>
    rw [List.cons_append, List.cons_append, literalBody, ih, List.flatMap_cons,
      bytesAsChars_control (by decide)]
    rfl

/-- A printed string is found after blanks, between its quotes. -/
theorem string_next {s : String} (h : lexis.Printed (.string s :: ts) text) :
    ∃ body rest, skipWs text = '"' :: (body ++ '"' :: rest) ∧ LiteralText body s.toList ∧
      lexis.Printed ts rest := by
  obtain ⟨spelling, rest, hskip, hs, -, hrest⟩ := h.next
  cases hs with
  | @string s body hs =>
    refine ⟨body, rest, hskip.trans ?_, hs, hrest⟩
    rw [List.cons_append, List.append_assoc, List.singleton_append]

/-- A printed string is read, byte by byte. -/
theorem parseStringLiteral_printed {s : String} (h : lexis.Printed (.string s :: ts) text) :
    ∃ rest, parseStringLiteral text = .ok (misread s, rest) ∧ lexis.Printed ts rest := by
  obtain ⟨body, rest, hskip, hs, hrest⟩ := string_next h
  refine ⟨rest, ?_, hrest⟩
  simp only [parseStringLiteral, hskip, literalBody_spelled hs, ok_bind]
  rfl

/-- A value with its text changed. -/
def Value.map (f : String → String) : Value → Value
  | .string s => .string (f s)
  | .integer i => .integer i
  | .bool b => .bool b

/-- A printed integer starts with a digit or a sign. -/
theorem integer_next {i : Int64} (h : lexis.Printed (.integer i :: ts) text) :
    ∃ c cs, skipWs text = c :: cs ∧ (isAsciiDigit c = true ∨ c = '-') := by
  obtain ⟨s, rest, hskip, hs, -, -⟩ := h.next
  cases hs with
  | positive hd =>
    obtain ⟨c, cs, rfl, hc⟩ := hd.cons
    exact ⟨c, cs ++ rest, hskip, Or.inl hc⟩
  | negative hd => exact ⟨_, _, hskip, Or.inr rfl⟩

theorem skip_printed (h : lexis.Printed ts text) : lexis.Printed ts (skipWs text) := h.skip

/-- A printed value is read as what it denotes. -/
theorem parseValue_printed {v : Value} (h : lexis.Printed (v.tokens ++ ts) text) :
    ∃ rest, parseValue text = .ok ((v.map misread).denote, rest) ∧ lexis.Printed ts rest := by
  have hskipped := skip_printed h
  cases v with
  | string s =>
    obtain ⟨body, rest, hskip, -, -⟩ := string_next h
    obtain ⟨rest', hparse, hrest⟩ := parseStringLiteral_printed hskipped
    rw [hskip] at hparse
    refine ⟨rest', ?_, hrest⟩
    simp only [parseValue, hskip, if_true, hparse, ok_bind]
    rfl
  | integer i =>
    obtain ⟨c, cs, hskip, hc⟩ := integer_next h
    obtain ⟨rest, hparse, hrest⟩ := parseInt_printed hskipped
    rw [hskip] at hparse
    have hquote : c ≠ '"' := by
      rintro rfl
      revert hc
      decide
    have hstart : (isAsciiDigit c || c == '-') = true := by
      simpa using hc
    refine ⟨rest, ?_, hrest⟩
    simp only [parseValue, hskip, if_neg hquote, if_pos hstart, hparse, ok_bind]
    rfl
  | bool b =>
    have hletter : ∀ c, isAsciiAlpha c = true → c ≠ '"' ∧ (isAsciiDigit c || c == '-') = false := by
      intro c hc
      rw [isAsciiDigit_of_isAsciiAlpha hc, Bool.false_or, beq_eq_false_iff_ne]
      constructor <;> rintro rfl <;> revert hc <;> decide
    cases b with
    | true =>
      obtain ⟨c, cs, rest, hskip, -, halpha, hkw, hrest⟩ := keyword_next h
      obtain ⟨hquote, hstart⟩ := hletter c halpha
      have htrue : tryKeyword "true" (c :: cs) = some rest := hkw
      refine ⟨rest, ?_, hrest⟩
      simp only [parseValue, hskip, if_neg hquote, hstart, halpha, htrue, Bool.false_eq_true,
        if_false, if_true]
      rfl
    | false =>
      obtain ⟨c, cs, rest, hskip, hc, halpha, hkw, hrest⟩ := keyword_next h
      obtain ⟨hquote, hstart⟩ := hletter c halpha
      have htrue : tryKeyword Keyword.isTrue.text (c :: cs) = none := by
        apply tryKeyword_none
        intro d hd
        obtain rfl := Option.some.inj hd
        rw [hc]
        decide
      have hfalse : tryKeyword "false" (c :: cs) = some rest := hkw
      refine ⟨rest, ?_, hrest⟩
      simp only [Keyword.text] at htrue
      simp only [parseValue, hskip, if_neg hquote, hstart, halpha, htrue, hfalse,
        Bool.false_eq_true, if_false, if_true]
      rfl

/-- A mark is spelled in one way. -/
theorem spelled_mark {m : Mark} {s : List Char} (h : Token.Spelled (.mark m) s) : s = m.chars := by
  cases h
  rfl

/-- What starts with a mark starts with its first character. -/
theorem starts_mark {P : Char → Prop} {m : Mark} (hm : ∀ c ∈ m.chars.head?, P c) :
    lexis.Starts P (.mark m :: ts) := by
  rw [Lexis.starts_cons]
  intro c cs hs
  exact hm c (by rw [← spelled_mark hs]; rfl)

/-- What starts with a keyword starts with its initial. -/
theorem starts_keyword {P : Char → Prop} {kw : Keyword}
    (h : ∀ c, toAsciiLower c = kw.initial → isAsciiAlpha c = true → P c) :
    lexis.Starts P (.keyword kw :: ts) := by
  rw [Lexis.starts_cons]
  intro c cs hs
  have hspelled : ∀ s, Token.Spelled (.keyword kw) s →
      s.map toAsciiLower = kw.text.toList.map toAsciiLower := by
    intro s hs
    cases hs
    assumption
  obtain ⟨d, ds, heq, hd, halpha⟩ := Keyword.spelled_cons (hspelled _ hs)
  obtain ⟨rfl, -⟩ := List.cons.inj heq
  exact h c hd halpha

/-- What is left out cannot start with a wrong character. -/
theorem starts_optional {α : Type} {P : Char → Prop} {f : α → List Token} (o : Option α)
    (h : ∀ a, lexis.Starts P (f a)) : lexis.Starts P (optional f o) := by
  cases o with
  | none => exact Lexis.starts_nil
  | some a => exact h a

/-- Repeated parts start as each of them does. -/
theorem starts_flatMap {α : Type} {P : Char → Prop} {f : α → List Token} (as : List α)
    (h : ∀ a, lexis.Starts P (f a)) : lexis.Starts P (as.flatMap f) := by
  induction as with
  | nil => exact Lexis.starts_nil
  | cons a as ih => exact (h a).append ih

end Cypher

end AtomrOntology
