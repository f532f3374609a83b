import AtomrOntology.Core.Bytes
import AtomrOntology.Core.Json

/-!
# The compact text of a JSON document

The printer is the compact formatter of `serde_json`: no blanks, short escapes
where they exist and `\u00XX` for the other control characters. The text is a
prefix code: what follows a printed document tells where it ended, so a document
is determined by its text.
-/

namespace AtomrOntology

namespace Json

/-- The text of one character inside a string. -/
def escapeChar (c : Char) : List Char :=
  if c = '"' then ['\\', '"']
  else if c = '\\' then ['\\', '\\']
  else if c = '\n' then ['\\', 'n']
  else if c = '\r' then ['\\', 'r']
  else if c = '\t' then ['\\', 't']
  else if c.toNat = 8 then ['\\', 'b']
  else if c.toNat = 12 then ['\\', 'f']
  else if c.toNat < 32 then
    ['\\', 'u', '0', '0', Hex.digit (c.toNat / 16), Hex.digit (c.toNat % 16)]
  else [c]

/-- A string with its quotes. -/
def quoted (s : String) : List Char := '"' :: s.toList.flatMap escapeChar ++ ['"']

/-- An integer in decimal. -/
def intChars (i : Int) : List Char := i.repr.toList

/-- The value of a hexadecimal digit. -/
private def unhex (c : Char) : Nat := if c.toNat < 58 then c.toNat - 48 else c.toNat - 87

/-- Undo one escape. -/
private def unescapeHead : List Char → Option (Char × List Char)
  | '\\' :: 'u' :: '0' :: '0' :: a :: b :: r => some (Char.ofNat (unhex a * 16 + unhex b), r)
  | '\\' :: '"' :: r => some ('"', r)
  | '\\' :: '\\' :: r => some ('\\', r)
  | '\\' :: 'n' :: r => some ('\n', r)
  | '\\' :: 'r' :: r => some ('\r', r)
  | '\\' :: 't' :: r => some ('\t', r)
  | '\\' :: 'b' :: r => some (Char.ofNat 8, r)
  | '\\' :: 'f' :: r => some (Char.ofNat 12, r)
  | c :: r => some (c, r)
  | [] => none

/-- An escaped control character is read back. -/
private theorem unescapeHead_control (n : Nat) (h : n < 32) (r : List Char) :
    unescapeHead (escapeChar (Char.ofNat n) ++ r) = some (Char.ofNat n, r) := by
  interval_cases n <;> rfl

/-- Other characters are not escaped. -/
theorem escapeChar_plain {c : Char} (hc : ¬c.toNat < 32) (hq : c ≠ '"') (hb : c ≠ '\\') :
    escapeChar c = [c] := by
  have h8 : c.toNat ≠ 8 := by omega
  have h12 : c.toNat ≠ 12 := by omega
  have hn : c ≠ '\n' := by rintro rfl; exact hc (by decide)
  have hr : c ≠ '\r' := by rintro rfl; exact hc (by decide)
  have ht : c ≠ '\t' := by rintro rfl; exact hc (by decide)
  simp only [escapeChar, if_neg hq, if_neg hb, if_neg hn, if_neg hr, if_neg ht, if_neg h8,
    if_neg h12, if_neg hc]

/-- One escaped character can be told from what follows it. -/
private theorem unescapeHead_escapeChar (c : Char) (r : List Char) :
    unescapeHead (escapeChar c ++ r) = some (c, r) := by
  by_cases hc : c.toNat < 32
  · rw [← Char.ofNat_toNat c]
    exact unescapeHead_control _ hc r
  by_cases hq : c = '"'
  · subst hq
    rfl
  by_cases hb : c = '\\'
  · subst hb
    rfl
  · rw [escapeChar_plain hc hq hb, List.singleton_append]
    unfold unescapeHead
    split <;> simp_all

/-- Escaped control characters start with a backslash. -/
private theorem escapeChar_control_head (n : Nat) (h : n < 32) :
    ∃ e, escapeChar (Char.ofNat n) = '\\' :: e := by
  interval_cases n <;> exact ⟨_, rfl⟩

/-- No escaped character starts like the closing quote. -/
private theorem escapeChar_head (c : Char) : ∃ d e, escapeChar c = d :: e ∧ d ≠ '"' := by
  by_cases hc : c.toNat < 32
  · obtain ⟨e, he⟩ := escapeChar_control_head _ hc
    rw [Char.ofNat_toNat] at he
    exact ⟨_, e, he, by decide⟩
  by_cases hq : c = '"'
  · subst hq
    exact ⟨_, _, rfl, by decide⟩
  by_cases hb : c = '\\'
  · subst hb
    exact ⟨_, _, rfl, by decide⟩
  · exact ⟨c, [], escapeChar_plain hc hq hb, hq⟩

/-- Escaped texts are told apart up to their closing quotes. -/
private theorem escaped_injective : ∀ (s t r u : List Char),
    s.flatMap escapeChar ++ '"' :: r = t.flatMap escapeChar ++ '"' :: u → s = t ∧ r = u
  | [], [], r, u, h => ⟨rfl, (List.cons.inj h).2⟩
  | [], d :: t, r, u, h => by
    obtain ⟨x, e, he, hx⟩ := escapeChar_head d
    rw [List.flatMap_cons, he] at h
    exact absurd (List.cons.inj h).1.symm hx
  | c :: s, [], r, u, h => by
    obtain ⟨x, e, he, hx⟩ := escapeChar_head c
    rw [List.flatMap_cons, he] at h
    exact absurd (List.cons.inj h).1 hx
  | c :: s, d :: t, r, u, h => by
    simp only [List.flatMap_cons, List.append_assoc] at h
    have hu := congrArg unescapeHead h
    rw [unescapeHead_escapeChar, unescapeHead_escapeChar, Option.some.injEq, Prod.mk.injEq] at hu
    obtain ⟨hst, hru⟩ := escaped_injective s t r u hu.2
    exact ⟨by rw [hu.1, hst], hru⟩

/-- A quoted string ends where its closing quote is. -/
theorem quoted_injective {s t : String} {r u : List Char}
    (h : quoted s ++ r = quoted t ++ u) : s = t ∧ r = u := by
  simp only [quoted, List.cons_append, List.append_assoc, List.nil_append, List.cons.injEq,
    true_and] at h
  obtain ⟨hst, hru⟩ := escaped_injective _ _ _ _ h
  exact ⟨String.toList_inj.mp hst, hru⟩

/-- The characters of a number token. -/
def Numeric (c : Char) : Prop := c.isDigit ∨ c ∈ ['-', '+', '.', 'e']

instance : DecidablePred Numeric := fun _ => inferInstanceAs (Decidable (_ ∨ _))

/-- What may follow a number: nothing that would continue it. -/
def Delimited (r : List Char) : Prop := ∀ c ∈ r.head?, ¬Numeric c

/-- A number reaches to its delimiter. -/
private theorem takeWhile_numeric {s r : List Char} (hs : ∀ c ∈ s, Numeric c) (hr : Delimited r) :
    (s ++ r).takeWhile (Numeric ·) = s := by
  rw [List.takeWhile_append_of_pos (by simpa using hs)]
  cases r with
  | nil => simp
  | cons c r =>
    have hc : ¬Numeric c := hr c rfl
    simp [hc]

/-- Numbers are told apart up to their delimiters. -/
private theorem numeric_injective {s t r u : List Char} (hs : ∀ c ∈ s, Numeric c)
    (ht : ∀ c ∈ t, Numeric c) (hr : Delimited r) (hu : Delimited u) (h : s ++ r = t ++ u) :
    s = t ∧ r = u := by
  have hst : s = t := by
    rw [← takeWhile_numeric hs hr, h, takeWhile_numeric ht hu]
  subst hst
  exact ⟨rfl, List.append_cancel_left h⟩

private theorem isDigit_of_mem_natRepr {n : Nat} {c : Char} (h : c ∈ n.repr.toList) :
    c.isDigit := by
  rw [Nat.toList_repr] at h
  exact Nat.isDigit_of_mem_toDigits (by decide) (by decide) h

/-- An integer is a sign and digits. -/
private theorem mem_intChars {i : Int} {c : Char} (h : c ∈ intChars i) : c.isDigit ∨ c = '-' := by
  rw [intChars, Int.repr_eq_if] at h
  split at h
  · exact Or.inl (isDigit_of_mem_natRepr h)
  · rw [String.toList_append, List.mem_append] at h
    rcases h with h | h
    · right
      simpa using h
    · exact Or.inl (isDigit_of_mem_natRepr h)

/-- Integers consist of the characters of numbers. -/
theorem intChars_numeric {i : Int} {c : Char} (h : c ∈ intChars i) : Numeric c := by
  rcases mem_intChars h with h | rfl
  · exact Or.inl h
  · exact Or.inr (by decide)

private theorem intChars_ne_nil (i : Int) : intChars i ≠ [] := by
  rw [intChars, Int.repr_eq_if]
  split
  · rw [Nat.toList_repr]
    exact Nat.toDigits_ne_nil
  · simp [String.toList_append]

private theorem nul_not_mem_escapeChar_control (n : Nat) (h : n < 32) :
    '\x00' ∉ escapeChar (Char.ofNat n) := by
  interval_cases n <;> decide

private theorem nul_not_mem_escapeChar (c : Char) : '\x00' ∉ escapeChar c := by
  by_cases hc : c.toNat < 32
  · rw [← Char.ofNat_toNat c]
    exact nul_not_mem_escapeChar_control _ hc
  by_cases hq : c = '"'
  · subst hq
    decide
  by_cases hb : c = '\\'
  · subst hb
    decide
  · rw [escapeChar_plain hc hq hb, List.mem_singleton]
    rintro rfl
    exact hc (by decide)

/-- No zero byte is written inside a text. -/
private theorem nul_not_mem_quoted (s : String) : '\x00' ∉ quoted s := by
  simp [quoted, nul_not_mem_escapeChar]

private theorem not_mem_of_numeric {s : List Char} (h : ∀ c ∈ s, Numeric c) : '\x00' ∉ s :=
  fun hm => absurd (h _ hm) (by decide)

/-- What the first character of a document shows. -/
private inductive Shape where
  | nul | bool | number | string | array | object

private def Shape.ofChar (c : Char) : Option Shape :=
  if c = 'n' then some .nul
  else if c = 't' ∨ c = 'f' then some .bool
  else if c = '"' then some .string
  else if c = '[' then some .array
  else if c = '\x7b' then some .object
  else if Numeric c then some .number
  else none

private theorem Shape.ofChar_numeric {c : Char} (h : Numeric c) :
    Shape.ofChar c = some .number := by
  have hn : c ≠ 'n' ∧ ¬(c = 't' ∨ c = 'f') ∧ c ≠ '"' ∧ c ≠ '[' ∧ c ≠ '\x7b' := by
    refine ⟨?_, ?_, ?_, ?_, ?_⟩
    case refine_2 => rintro (rfl | rfl) <;> exact absurd h (by decide)
    all_goals rintro rfl; exact absurd h (by decide)
  simp only [Shape.ofChar, if_neg hn.1, if_neg hn.2.1, if_neg hn.2.2.1, if_neg hn.2.2.2.1,
    if_neg hn.2.2.2.2, if_pos h]

variable [SerdeJson]

mutual

/-- The printed characters. -/
def chars : Json → List Char
  | .null => ['n', 'u', 'l', 'l']
  | .bool true => ['t', 'r', 'u', 'e']
  | .bool false => ['f', 'a', 'l', 's', 'e']
  | .int i => intChars i.val
  | .float f => (SerdeJson.floatText f).toList
  | .str s => quoted s
  | .arr [] => ['[', ']']
  | .arr (x :: xs) => '[' :: chars x ++ charsItems xs
  | .obj [] => ['{', '}']
  | .obj ((k, x) :: xs) => '{' :: quoted k ++ ':' :: chars x ++ charsEntries xs

/-- The rest of an array after its first item. -/
def charsItems : List Json → List Char
  | [] => [']']
  | x :: xs => ',' :: chars x ++ charsItems xs

/-- The rest of an object after its first entry. -/
def charsEntries : List (String × Json) → List Char
  | [] => ['}']
  | (k, x) :: xs => ',' :: quoted k ++ ':' :: chars x ++ charsEntries xs

end

/-- `serde_json::to_string`. -/
def text (j : Json) : String := String.ofList j.chars

private theorem floatText_ne_nil (f : FiniteF64) : (SerdeJson.floatText f).toList ≠ [] := by
  intro h
  have hf := SerdeJson.floatText_fractional f
  simp [h] at hf

/-- An integer and a float never share their text. -/
private theorem intChars_ne_floatText (i : Int) (f : FiniteF64) :
    intChars i ≠ (SerdeJson.floatText f).toList := by
  intro h
  rcases SerdeJson.floatText_fractional f with hf | hf
  · rw [← h] at hf
    rcases mem_intChars hf with hd | hd
    · exact absurd hd (by decide)
    · exact absurd hd (by decide)
  · rw [← h] at hf
    rcases mem_intChars hf with hd | hd
    · exact absurd hd (by decide)
    · exact absurd hd (by decide)

private def Shape.of : Json → Shape
  | .null => .nul
  | .bool _ => .bool
  | .int _ | .float _ => .number
  | .str _ => .string
  | .arr _ => .array
  | .obj _ => .object

/-- The first character of a document tells its shape. -/
private theorem chars_head (j : Json) :
    ∃ c e, j.chars = c :: e ∧ Shape.ofChar c = some (Shape.of j) := by
  cases j with
  | null => exact ⟨_, _, rfl, rfl⟩
  | bool b => cases b <;> exact ⟨_, _, rfl, rfl⟩
  | int i =>
    obtain ⟨c, e, he⟩ := List.exists_cons_of_ne_nil (intChars_ne_nil i.val)
    exact ⟨c, e, he, Shape.ofChar_numeric (intChars_numeric (he ▸ List.mem_cons_self))⟩
  | float f =>
    obtain ⟨c, e, he⟩ := List.exists_cons_of_ne_nil (floatText_ne_nil f)
    exact ⟨c, e, he,
      Shape.ofChar_numeric (SerdeJson.floatText_numeric f c (he ▸ List.mem_cons_self))⟩
  | str s => exact ⟨_, _, rfl, rfl⟩
  | arr items => cases items <;> exact ⟨_, _, rfl, rfl⟩
  | obj entries =>
    match entries with
    | [] => exact ⟨_, _, rfl, rfl⟩
    | (k, x) :: rest => exact ⟨_, _, rfl, rfl⟩

/-- No document is empty. -/
theorem chars_ne_nil (j : Json) : j.chars ≠ [] := by
  obtain ⟨c, e, he, -⟩ := chars_head j
  rw [he]
  exact List.cons_ne_nil c e

/-- Texts that agree up to what follows them have the same shape. -/
private theorem shape_eq {j j' : Json} {r u : List Char} (h : j.chars ++ r = j'.chars ++ u) :
    Shape.of j = Shape.of j' := by
  obtain ⟨c, e, he, hc⟩ := chars_head j
  obtain ⟨c', e', he', hc'⟩ := chars_head j'
  rw [he, he'] at h
  rw [(List.cons.inj h).1] at hc
  exact Option.some.inj (hc.symm.trans hc')

/-- What follows an item is delimited. -/
private theorem delimited_items (xs : List Json) (r : List Char) :
    Delimited (charsItems xs ++ r) := by
  intro c hc
  cases xs <;> (obtain rfl : _ = c := Option.some.inj hc; decide)

/-- What follows an entry is delimited. -/
private theorem delimited_entries (xs : List (String × Json)) (r : List Char) :
    Delimited (charsEntries xs ++ r) := by
  intro c hc
  match xs with
  | [] => obtain rfl : _ = c := Option.some.inj hc; decide
  | (_, _) :: _ => obtain rfl : _ = c := Option.some.inj hc; decide

private theorem charsItems_head_ne (x : Json) (r u : List Char) : ']' :: r ≠ x.chars ++ u := by
  intro h
  obtain ⟨c, e, he, hc⟩ := chars_head x
  rw [he] at h
  rw [← (List.cons.inj h).1] at hc
  exact Option.some_ne_none _ (hc.symm.trans (by decide))

mutual

/-- Two printed documents, each followed by something that does not continue it, are
the same text only if they are the same document. -/
private theorem chars_prefixFree : ∀ (j j' : Json) (r u : List Char), Delimited r → Delimited u →
    j.chars ++ r = j'.chars ++ u → j = j' ∧ r = u
  | .null, j', r, u, _, _, h => by
    cases j' with
    | null => exact ⟨rfl, List.append_cancel_left h⟩
    | _ => cases shape_eq h
  | .bool b, j', r, u, _, _, h => by
    cases j' with
    | bool b' => cases b <;> cases b' <;> simp_all [chars]
    | _ => cases shape_eq h
  | .int i, j', r, u, hr, hu, h => by
    cases j' with
    | int i' =>
      obtain ⟨hi, hru⟩ := numeric_injective (fun c => intChars_numeric) (fun c => intChars_numeric)
        hr hu h
      exact ⟨congrArg _ (Subtype.ext (Int.repr_injective (String.toList_inj.mp hi))), hru⟩
    | float f =>
      exact absurd (numeric_injective (fun c => intChars_numeric) (SerdeJson.floatText_numeric f)
        hr hu h).1 (intChars_ne_floatText _ _)
    | _ => cases shape_eq h
  | .float f, j', r, u, hr, hu, h => by
    cases j' with
    | int i =>
      exact absurd (numeric_injective (SerdeJson.floatText_numeric f) (fun c => intChars_numeric)
        hr hu h).1.symm (intChars_ne_floatText _ _)
    | float f' =>
      obtain ⟨hf, hru⟩ := numeric_injective (SerdeJson.floatText_numeric f)
        (SerdeJson.floatText_numeric f') hr hu h
      exact ⟨congrArg _ (SerdeJson.floatText_injective _ _ (String.toList_inj.mp hf)), hru⟩
    | _ => cases shape_eq h
  | .str s, j', r, u, _, _, h => by
    cases j' with
    | str t =>
      obtain ⟨hst, hru⟩ := quoted_injective h
      exact ⟨congrArg _ hst, hru⟩
    | _ => cases shape_eq h
  | .arr [], j', r, u, _, _, h => by
    cases j' with
    | arr ys =>
      cases ys with
      | nil => exact ⟨rfl, List.append_cancel_left h⟩
      | cons y ys =>
        simp only [chars, List.cons_append, List.append_assoc, List.cons.injEq, true_and] at h
        exact absurd h (charsItems_head_ne y r _)
    | _ => cases shape_eq h
  | .arr (x :: xs), j', r, u, _, _, h => by
    cases j' with
    | arr ys =>
      cases ys with
      | nil =>
        simp only [chars, List.cons_append, List.append_assoc, List.cons.injEq, true_and] at h
        exact absurd h.symm (charsItems_head_ne x u _)
      | cons y ys =>
        simp only [chars, List.cons_append, List.append_assoc, List.cons.injEq, true_and] at h
        obtain ⟨hxy, hrest⟩ :=
          chars_prefixFree x y _ _ (delimited_items xs r) (delimited_items ys u) h
        obtain ⟨hs, hru⟩ := charsItems_prefixFree xs ys r u hrest
        exact ⟨by rw [hxy, hs], hru⟩
    | _ => cases shape_eq h
  | .obj [], j', r, u, _, _, h => by
    cases j' with
    | obj ys =>
      match ys with
      | [] => exact ⟨rfl, List.append_cancel_left h⟩
      | (_, _) :: _ => simp [chars, quoted] at h
    | _ => cases shape_eq h
  | .obj ((k, x) :: xs), j', r, u, _, _, h => by
    cases j' with
    | obj ys =>
      match ys with
      | [] => simp [chars, quoted] at h
      | (l, y) :: ys =>
        simp only [chars, List.cons_append, List.append_assoc, List.cons.injEq, true_and] at h
        obtain ⟨hkl, hx⟩ := quoted_injective h
        obtain ⟨hxy, hrest⟩ := chars_prefixFree x y _ _ (delimited_entries xs r)
          (delimited_entries ys u) (List.cons.inj hx).2
        obtain ⟨hs, hru⟩ := charsEntries_prefixFree xs ys r u hrest
        exact ⟨by rw [hkl, hxy, hs], hru⟩
    | _ => cases shape_eq h

/-- Arrays are told apart up to their closing brackets. -/
private theorem charsItems_prefixFree : ∀ (xs ys : List Json) (r u : List Char),
    charsItems xs ++ r = charsItems ys ++ u → xs = ys ∧ r = u
  | [], [], r, u, h => ⟨rfl, List.append_cancel_left h⟩
  | [], y :: ys, r, u, h => by simp [charsItems] at h
  | x :: xs, [], r, u, h => by simp [charsItems] at h
  | x :: xs, y :: ys, r, u, h => by
    simp only [charsItems, List.cons_append, List.append_assoc, List.cons.injEq, true_and] at h
    obtain ⟨hxy, hrest⟩ :=
      chars_prefixFree x y _ _ (delimited_items xs r) (delimited_items ys u) h
    obtain ⟨hs, hru⟩ := charsItems_prefixFree xs ys r u hrest
    exact ⟨by rw [hxy, hs], hru⟩

/-- Objects are told apart up to their closing braces. -/
private theorem charsEntries_prefixFree : ∀ (xs ys : List (String × Json)) (r u : List Char),
    charsEntries xs ++ r = charsEntries ys ++ u → xs = ys ∧ r = u
  | [], [], r, u, h => ⟨rfl, List.append_cancel_left h⟩
  | [], (_, _) :: _, r, u, h => by simp [charsEntries] at h
  | (_, _) :: _, [], r, u, h => by simp [charsEntries] at h
  | (k, x) :: xs, (l, y) :: ys, r, u, h => by
    simp only [charsEntries, List.cons_append, List.append_assoc, List.cons.injEq, true_and] at h
    obtain ⟨hkl, hx⟩ := quoted_injective h
    obtain ⟨hxy, hrest⟩ := chars_prefixFree x y _ _ (delimited_entries xs r)
      (delimited_entries ys u) (List.cons.inj hx).2
    obtain ⟨hs, hru⟩ := charsEntries_prefixFree xs ys r u hrest
    exact ⟨by rw [hkl, hxy, hs], hru⟩

end

/-- A document is determined by its text. -/
theorem text_injective {j j' : Json} (h : j.text = j'.text) : j = j' := by
  have hc : j.chars ++ [] = j'.chars ++ [] := by
    rw [List.append_nil, List.append_nil]
    exact String.ofList_injective h
  exact (chars_prefixFree j j' [] [] (by simp [Delimited]) (by simp [Delimited]) hc).1

mutual

/-- Control characters are escaped, so no text holds a NUL. -/
theorem nul_not_mem_chars : ∀ j : Json, '\x00' ∉ j.chars
  | .null => by simp [chars]
  | .bool b => by cases b <;> simp [chars]
  | .int i => not_mem_of_numeric fun _ => intChars_numeric
  | .float f => not_mem_of_numeric (SerdeJson.floatText_numeric f)
  | .str s => nul_not_mem_quoted s
  | .arr [] => by simp [chars]
  | .arr (x :: xs) => by
    simp [chars, nul_not_mem_chars x, nul_not_mem_charsItems xs]
  | .obj [] => by simp [chars]
  | .obj ((k, x) :: xs) => by
    simp [chars, nul_not_mem_quoted, nul_not_mem_chars x, nul_not_mem_charsEntries xs]

/-- Nor inside an array. -/
private theorem nul_not_mem_charsItems : ∀ xs : List Json, '\x00' ∉ charsItems xs
  | [] => by simp [charsItems]
  | x :: xs => by simp [charsItems, nul_not_mem_chars x, nul_not_mem_charsItems xs]

/-- Nor inside an object. -/
private theorem nul_not_mem_charsEntries : ∀ xs : List (String × Json), '\x00' ∉ charsEntries xs
  | [] => by simp [charsEntries]
  | (k, x) :: xs => by
    simp [charsEntries, nul_not_mem_quoted, nul_not_mem_chars x, nul_not_mem_charsEntries xs]

end

end Json

private theorem numeric_bits {f : FiniteF64} {c : Char}
    (h : c ∈ (Nat.repr f.val.bits.toNat ++ ".0").toList) : Json.Numeric c := by
  rw [String.toList_append, List.mem_append] at h
  rcases h with h | h
  · exact Or.inl (Json.isDigit_of_mem_natRepr h)
  · have hc : c = '.' ∨ c = '0' := by simpa using h
    rcases hc with rfl | rfl <;> decide

/-- A number code that loses nothing, for running the model. -/
abbrev SerdeJson.plain : SerdeJson where
  floatText f := Nat.repr f.val.bits.toNat ++ ".0"
  floatReread f := some f
  floatOfInt _ := ⟨⟨0#64⟩, by decide⟩
  errorText _ := "invalid document"
  floatText_injective f g h := by
    have hr := congrArg String.toList h
    rw [String.toList_append, String.toList_append] at hr
    have hn := Nat.repr_injective (String.toList_inj.mp (List.append_cancel_right hr))
    exact Subtype.ext (congrArg F64.mk (BitVec.eq_of_toNat_eq hn))
  floatText_numeric f c h := numeric_bits h
  floatText_fractional f := Or.inl (by simp)

end AtomrOntology
