import AtomrOntology.Rdf.Triple

/-!
# Base64

The encoder of the adapter as it runs: an index into the bytes, groups of three bytes packed into
32 bits, and a table of 64 digits. No index is out of range, and what it writes is the padded
encoding of RFC 4648, which the strict decoder reads back.
-/

namespace AtomrOntology

namespace Base64

/-- `TABLE`. -/
def table : List Char := "ABCDEFGHIJKLMNOPQRSTUVWXYZabcdefghijklmnopqrstuvwxyz0123456789+/".toList

private theorem table_eq : table =
    ['A', 'B', 'C', 'D', 'E', 'F', 'G', 'H', 'I', 'J', 'K', 'L', 'M', 'N', 'O', 'P', 'Q', 'R', 'S',
      'T', 'U', 'V', 'W', 'X', 'Y', 'Z', 'a', 'b', 'c', 'd', 'e', 'f', 'g', 'h', 'i', 'j', 'k', 'l',
      'm', 'n', 'o', 'p', 'q', 'r', 's', 't', 'u', 'v', 'w', 'x', 'y', 'z', '0', '1', '2', '3', '4',
      '5', '6', '7', '8', '9', '+', '/'] := by decide +kernel

theorem length_table : table.length = 64 := by
  rw [table_eq]
  rfl

/-- `TABLE[((chunk >> shift) & 0x3F) as usize] as char`, if the index is in range. -/
def digitAt (chunk shift : UInt32) : Option Char := table[((chunk >>> shift) &&& 0x3F).toNat]?

/-- The loop over whole groups: the index that it leaves and the text so far. -/
def encodeLoop (bytes : List UInt8) (i : Nat) (out : List Char) : Option (Nat × List Char) :=
  if i + 3 ≤ bytes.length then do
    let a ← bytes[i]?
    let b ← bytes[i + 1]?
    let c ← bytes[i + 2]?
    let chunk := (a.toUInt32 <<< 16) ||| (b.toUInt32 <<< 8) ||| c.toUInt32
    let d0 ← digitAt chunk 18
    let d1 ← digitAt chunk 12
    let d2 ← digitAt chunk 6
    let d3 ← digitAt chunk 0
    encodeLoop bytes (i + 3) (out ++ [d0, d1, d2, d3])
  else some (i, out)
termination_by bytes.length - i

/-- The one or two bytes behind the last whole group. -/
def encodeRest (bytes : List UInt8) (i : Nat) (out : List Char) : Option (List Char) :=
  match bytes.length - i with
  | 1 => do
    let a ← bytes[i]?
    let chunk := a.toUInt32 <<< 16
    let d0 ← digitAt chunk 18
    let d1 ← digitAt chunk 12
    some (out ++ [d0, d1, '=', '='])
  | 2 => do
    let a ← bytes[i]?
    let b ← bytes[i + 1]?
    let chunk := (a.toUInt32 <<< 16) ||| (b.toUInt32 <<< 8)
    let d0 ← digitAt chunk 18
    let d1 ← digitAt chunk 12
    let d2 ← digitAt chunk 6
    some (out ++ [d0, d1, d2, '='])
  | _ => some out

/-- `base64_encode`; nothing if an index is out of range. -/
def base64Encode (bytes : List UInt8) : Option (List Char) := do
  let (i, out) ← encodeLoop bytes 0 []
  encodeRest bytes i out

/-- Shifting a byte to the left by at most three bytes loses no bits. -/
theorem toNat_shiftLeft (b : UInt8) {shift : UInt32} (h : shift.toNat ≤ 24) :
    (b.toUInt32 <<< shift).toNat = b.toNat * 2 ^ shift.toNat := by
  have hb := b.toNat_lt
  have hpow : 2 ^ shift.toNat ≤ 2 ^ 24 := Nat.pow_le_pow_right (by decide) h
  have hfits : b.toNat * 2 ^ shift.toNat < 2 ^ 32 := by
    calc b.toNat * 2 ^ shift.toNat
        ≤ b.toNat * 2 ^ 24 := Nat.mul_le_mul_left _ hpow
      _ < 2 ^ 32 := by omega
  rw [UInt32.toNat_shiftLeft, UInt8.toNat_toUInt32, Nat.mod_eq_of_lt (a := shift.toNat) (by omega),
    Nat.shiftLeft_eq, Nat.mod_eq_of_lt hfits]

/-- Bits beside bits add up. -/
theorem or_eq_add {m n k : Nat} (h : n < 2 ^ k) : m * 2 ^ k ||| n = m * 2 ^ k + n := by
  rw [← Nat.shiftLeft_eq, Nat.shiftLeft_add_eq_or_of_lt h]

theorem toNat_pair (a b : UInt8) : ((a.toUInt32 <<< 16) ||| (b.toUInt32 <<< 8)).toNat =
    a.toNat * 2 ^ 16 + b.toNat * 2 ^ 8 := by
  have hb := b.toNat_lt
  rw [UInt32.toNat_or, toNat_shiftLeft a (by decide), toNat_shiftLeft b (by decide)]
  exact or_eq_add (k := 16) (by simp only [UInt32.reduceToNat]; omega)

theorem toNat_chunk (a b c : UInt8) :
    ((a.toUInt32 <<< 16) ||| (b.toUInt32 <<< 8) ||| c.toUInt32).toNat =
      a.toNat * 2 ^ 16 + b.toNat * 2 ^ 8 + c.toNat := by
  have hc := c.toNat_lt
  have hsum : a.toNat * 2 ^ 16 + b.toNat * 2 ^ 8 = (a.toNat * 2 ^ 8 + b.toNat) * 2 ^ 8 := by omega
  rw [UInt32.toNat_or, toNat_pair, UInt8.toNat_toUInt32, hsum]
  exact or_eq_add (by omega)

/-- Six bits are an index into the table. -/
theorem digitAt_eq (chunk : UInt32) {shift : UInt32} (h : shift.toNat < 32) :
    digitAt chunk shift = some (base64Digit (chunk.toNat / 2 ^ shift.toNat)) := by
  have hindex : ((chunk >>> shift) &&& 0x3F).toNat = chunk.toNat / 2 ^ shift.toNat % 64 := by
    have hmask : (0x3F : UInt32).toNat = 2 ^ 6 - 1 := rfl
    rw [UInt32.toNat_and, UInt32.toNat_shiftRight, hmask, Nat.mod_eq_of_lt h,
      Nat.and_two_pow_sub_one_eq_mod, Nat.shiftRight_eq_div_pow]
  have hlt : chunk.toNat / 2 ^ shift.toNat % 64 < table.length := by
    rw [length_table]
    exact Nat.mod_lt _ (by decide)
  have hdigit : base64Digit (chunk.toNat / 2 ^ shift.toNat) =
      table[chunk.toNat / 2 ^ shift.toNat % 64]?.getD 'A' := rfl
  rw [digitAt, hindex, hdigit, List.getElem?_eq_getElem hlt, Option.getD_some]

/-- Three bytes from an index on. -/
theorem drop_three {bytes : List UInt8} {i : Nat} (h : i + 3 ≤ bytes.length) :
    ∃ a b c, bytes[i]? = some a ∧ bytes[i + 1]? = some b ∧ bytes[i + 2]? = some c ∧
      bytes.drop i = a :: b :: c :: bytes.drop (i + 3) := by
  refine ⟨bytes[i], bytes[i + 1], bytes[i + 2], List.getElem?_eq_getElem _,
    List.getElem?_eq_getElem _, List.getElem?_eq_getElem _, ?_⟩
  rw [List.drop_eq_getElem_cons (by omega), List.drop_eq_getElem_cons (by omega),
    List.drop_eq_getElem_cons (by omega)]

/-- Whatever is left behind the last whole group is encoded with padding. -/
theorem encodeRest_eq {bytes : List UInt8} {i : Nat} (hi : i ≤ bytes.length)
    (hrest : ¬i + 3 ≤ bytes.length) (out : List Char) :
    encodeRest bytes i out = some (out ++ base64Chars (bytes.drop i)) := by
  have hlength : (bytes.drop i).length = bytes.length - i := List.length_drop
  have hget : ∀ k, bytes[i + k]? = (bytes.drop i)[k]? := fun k => by rw [List.getElem?_drop]
  unfold encodeRest
  rw [← hlength, show bytes[i]? = (bytes.drop i)[0]? from hget 0, hget 1]
  rcases hdrop : bytes.drop i with _ | ⟨a, _ | ⟨b, _ | ⟨c, rest⟩⟩⟩
  · simp [base64Chars]
  · have hchunk : (a.toUInt32 <<< 16).toNat = a.toNat * 2 ^ 16 := toNat_shiftLeft a (by decide)
    simp only [List.length_singleton, List.getElem?_cons_zero, Option.bind_eq_bind,
      Option.bind_some]
    rw [digitAt_eq _ (by decide), digitAt_eq _ (by decide), hchunk]
    rfl
  · simp only [List.length_cons, List.length_nil, List.getElem?_cons_zero, List.getElem?_cons_succ,
      Option.bind_eq_bind, Option.bind_some]
    rw [digitAt_eq _ (by decide), digitAt_eq _ (by decide), digitAt_eq _ (by decide), toNat_pair]
    rfl
  · rw [hdrop, List.length_cons, List.length_cons, List.length_cons] at hlength
    omega

theorem encodeLoop_eq {bytes : List UInt8} {i : Nat} (hi : i ≤ bytes.length) (out : List Char) :
    (encodeLoop bytes i out).bind (fun (i, out) => encodeRest bytes i out) =
      some (out ++ base64Chars (bytes.drop i)) := by
  induction hn : bytes.length - i using Nat.strong_induction_on generalizing i out with
  | h n ih =>
    rw [encodeLoop]
    by_cases hgroup : i + 3 ≤ bytes.length
    · obtain ⟨a, b, c, ha, hb, hc, hdrop⟩ := drop_three hgroup
      have hchunk := toNat_chunk a b c
      rw [if_pos hgroup]
      simp only [ha, hb, hc, Option.bind_eq_bind, Option.bind_some]
      rw [digitAt_eq _ (by decide), digitAt_eq _ (by decide), digitAt_eq _ (by decide),
        digitAt_eq _ (by decide), hchunk]
      simp only [Option.bind_some]
      rw [ih (bytes.length - (i + 3)) (by omega) hgroup _ rfl, hdrop, base64Chars]
      simp
    · rw [if_neg hgroup, Option.bind_some]
      exact encodeRest_eq hi hgroup out

/-- The loop writes the groups one after the other. -/
theorem base64Encode_eq (bytes : List UInt8) :
    base64Encode bytes = some (base64Chars bytes) := by
  have h := encodeLoop_eq (Nat.zero_le bytes.length) []
  rw [List.nil_append, List.drop_zero] at h
  exact h

/-- The six bits that a digit stands for: letters of both cases, digits, `+` and `/`. -/
def value (c : Char) : Option Nat :=
  if 'A' ≤ c ∧ c ≤ 'Z' then some (c.toNat - 65)
  else if 'a' ≤ c ∧ c ≤ 'z' then some (c.toNat - 71)
  else if '0' ≤ c ∧ c ≤ '9' then some (c.toNat + 4)
  else if c = '+' then some 62
  else if c = '/' then some 63
  else none

/-- The strict decoder: padding ends the text, and the bits that it cuts off are zero. -/
def decode : List Char → Option (List UInt8)
  | [] => some []
  | a :: b :: c :: d :: rest =>
    if d ≠ '=' then do
      let m := (← value a) * 2 ^ 18 + (← value b) * 2 ^ 12 + (← value c) * 2 ^ 6 + (← value d)
      let bytes ← decode rest
      some ([UInt8.ofNat (m / 2 ^ 16), UInt8.ofNat (m / 2 ^ 8), UInt8.ofNat m] ++ bytes)
    else if rest ≠ [] then none
    else if c ≠ '=' then do
      let m := (← value a) * 2 ^ 12 + (← value b) * 2 ^ 6 + (← value c)
      if m % 2 ^ 2 = 0 then some [UInt8.ofNat (m / 2 ^ 10), UInt8.ofNat (m / 2 ^ 2)] else none
    else do
      let m := (← value a) * 2 ^ 6 + (← value b)
      if m % 2 ^ 4 = 0 then some [UInt8.ofNat (m / 2 ^ 4)] else none
  | _ => none

theorem base64Digit_mem (n : Nat) : base64Digit n ∈ table := by
  have hlt : n % 64 < table.length := by
    rw [length_table]
    exact Nat.mod_lt _ (by decide)
  have hdigit : base64Digit n = table[n % 64]?.getD 'A' := rfl
  rw [hdigit, List.getElem?_eq_getElem hlt]
  exact List.getElem_mem hlt

/-- A digit stands for the six bits it was written for. -/
@[simp] theorem value_base64Digit (n : Nat) : value (base64Digit n) = some (n % 64) := by
  have hall : ∀ k : Fin 64, table[k.val]?.bind value = some k.val := by
    rw [table_eq]
    decide
  have hlt : n % 64 < table.length := by
    rw [length_table]
    exact Nat.mod_lt _ (by decide)
  have hdigit : base64Digit n = table[n % 64]?.getD 'A' := rfl
  have hvalue := hall ⟨n % 64, Nat.mod_lt _ (by decide)⟩
  rw [List.getElem?_eq_getElem hlt, Option.bind_some] at hvalue
  rw [hdigit, List.getElem?_eq_getElem hlt, Option.getD_some, hvalue]

theorem base64Digit_ne_pad (n : Nat) : base64Digit n ≠ '=' := by
  intro h
  have hvalue := value_base64Digit n
  rw [h] at hvalue
  cases hvalue

/-- The last eight of some bits. -/
theorem ofNat_byte (b : UInt8) (high : Nat) : UInt8.ofNat (high * 2 ^ 8 + b.toNat) = b := by
  have hb := b.toNat_lt
  rw [← UInt8.toNat_inj, UInt8.toNat_ofNat']
  omega

/-- The strict decoder reads back what was encoded. -/
theorem decode_base64Chars (bytes : List UInt8) : decode (base64Chars bytes) = some bytes := by
  induction bytes using base64Chars.induct with
  | case1 a b c rest ih =>
    have hb := b.toNat_lt
    have hc := c.toNat_lt
    obtain ⟨chunk, hchunk⟩ :
        ∃ n, n = a.toNat * 2 ^ 16 + b.toNat * 2 ^ 8 + c.toNat := exists_eq
    have h2 : chunk = (a.toNat * 2 ^ 8 + b.toNat) * 2 ^ 8 + c.toNat := by
      rw [hchunk]
      ring
    have ha := a.toNat_lt
    have hm : chunk / 2 ^ 18 % 64 * 2 ^ 18 + chunk / 2 ^ 12 % 64 * 2 ^ 12 +
        chunk / 2 ^ 6 % 64 * 2 ^ 6 + chunk % 64 = chunk := by omega
    have h0 : chunk / 2 ^ 16 = 0 * 2 ^ 8 + a.toNat := by omega
    have h1 : chunk / 2 ^ 8 = a.toNat * 2 ^ 8 + b.toNat := by omega
    simp only [base64Chars, List.cons_append, List.nil_append, ← hchunk]
    rw [decode, if_pos (base64Digit_ne_pad _)]
    simp only [value_base64Digit, ih, Option.bind_eq_bind, Option.bind_some, hm, h0, h1]
    rw [h2, ofNat_byte, ofNat_byte, ofNat_byte]
    rfl
  | case2 a b =>
    have ha := a.toNat_lt
    have hb := b.toNat_lt
    obtain ⟨chunk, hchunk⟩ : ∃ n, n = a.toNat * 2 ^ 16 + b.toNat * 2 ^ 8 := exists_eq
    have hm : chunk / 2 ^ 18 % 64 * 2 ^ 12 + chunk / 2 ^ 12 % 64 * 2 ^ 6 + chunk / 2 ^ 6 % 64 =
        chunk / 2 ^ 6 := by omega
    have h0 : chunk / 2 ^ 6 / 2 ^ 10 = 0 * 2 ^ 8 + a.toNat := by omega
    have h1 : chunk / 2 ^ 6 / 2 ^ 2 = a.toNat * 2 ^ 8 + b.toNat := by omega
    simp only [base64Chars, ← hchunk]
    rw [decode, if_neg (by simp), if_neg (by simp), if_pos (base64Digit_ne_pad _)]
    simp only [value_base64Digit, Option.bind_eq_bind, Option.bind_some, hm]
    rw [if_pos (by omega), h0, h1, ofNat_byte, ofNat_byte]
  | case3 a =>
    have ha := a.toNat_lt
    obtain ⟨chunk, hchunk⟩ : ∃ n, n = a.toNat * 2 ^ 16 := exists_eq
    have hm : chunk / 2 ^ 18 % 64 * 2 ^ 6 + chunk / 2 ^ 12 % 64 = chunk / 2 ^ 12 := by omega
    have h0 : chunk / 2 ^ 12 / 2 ^ 4 = 0 * 2 ^ 8 + a.toNat := by omega
    simp only [base64Chars, ← hchunk]
    rw [decode, if_neg (by simp), if_neg (by simp), if_neg (by simp)]
    simp only [value_base64Digit, Option.bind_eq_bind, Option.bind_some, hm]
    rw [if_pos (by omega), h0, ofNat_byte]
  | case4 => rfl

/-- Different bytes have different encodings. -/
theorem base64Chars_injective : Function.Injective base64Chars := by
  intro bytes bytes' h
  have hdecode := decode_base64Chars bytes
  rw [h, decode_base64Chars] at hdecode
  exact (Option.some.inj hdecode).symm

/-- How much padding makes up for the bytes that the last group lacks. -/
def padding (count : Nat) : List Char := .replicate ((3 - count % 3) % 3) '='

/-- Digits of the alphabet, then as much padding as the number of bytes requires. -/
theorem base64Chars_padded (bytes : List UInt8) : ∃ digits, (∀ c ∈ digits, c ∈ table) ∧
    base64Chars bytes = digits ++ padding bytes.length := by
  induction bytes using base64Chars.induct with
  | case1 a b c rest ih =>
    obtain ⟨digits, hdigits, hrest⟩ := ih
    have hcount : (a :: b :: c :: rest).length % 3 = rest.length % 3 := by
      simp only [List.length_cons]
      omega
    rw [base64Chars, hrest, padding, padding, hcount, ← List.append_assoc]
    refine ⟨_, ?_, rfl⟩
    intro d hd
    rw [List.mem_append] at hd
    rcases hd with hd | hd
    · simp only [List.mem_cons, List.not_mem_nil, or_false] at hd
      rcases hd with rfl | rfl | rfl | rfl <;> exact base64Digit_mem _
    · exact hdigits d hd
  | case2 a b =>
    exact ⟨[_, _, _], by simp [base64Digit_mem], rfl⟩
  | case3 a =>
    exact ⟨[_, _], by simp [base64Digit_mem], rfl⟩
  | case4 => exact ⟨[], by simp, rfl⟩

/-- Four characters for every three bytes begun. -/
theorem length_base64Chars (bytes : List UInt8) :
    (base64Chars bytes).length = 4 * ((bytes.length + 2) / 3) := by
  induction bytes using base64Chars.induct with
  | case1 a b c rest ih =>
    simp only [base64Chars, List.cons_append, List.nil_append, List.length_cons, ih]
    omega
  | case2 a b => simp [base64Chars]
  | case3 a => simp [base64Chars]
  | case4 => rfl

/-- What the encoder writes is the padded encoding of RFC 4648: no index is out of range and no
shift loses bits, the length is four for every three bytes begun, the digits are those of the
standard alphabet with padding as required, and the strict decoder gives back the bytes. -/
theorem base64Encode_rfc4648 (bytes : List UInt8) :
    (∃ text, base64Encode bytes = some text ∧ text.length = 4 * ((bytes.length + 2) / 3) ∧
      (∃ digits, (∀ c ∈ digits, c ∈ table) ∧ text = digits ++ padding bytes.length) ∧
      decode text = some bytes) ∧
    ∀ a b c : UInt8, (a.toUInt32 <<< 16).toNat = a.toNat * 2 ^ 16 ∧
      (b.toUInt32 <<< 8).toNat = b.toNat * 2 ^ 8 ∧
      ((a.toUInt32 <<< 16) ||| (b.toUInt32 <<< 8)).toNat = a.toNat * 2 ^ 16 + b.toNat * 2 ^ 8 ∧
      ((a.toUInt32 <<< 16) ||| (b.toUInt32 <<< 8) ||| c.toUInt32).toNat =
        a.toNat * 2 ^ 16 + b.toNat * 2 ^ 8 + c.toNat :=
  ⟨⟨base64Chars bytes, base64Encode_eq bytes, length_base64Chars bytes, base64Chars_padded bytes,
    decode_base64Chars bytes⟩, fun a b c => ⟨toNat_shiftLeft a (by decide),
      toNat_shiftLeft b (by decide), toNat_pair a b, toNat_chunk a b c⟩⟩

end Base64

end AtomrOntology
