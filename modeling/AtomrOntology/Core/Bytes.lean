import Mathlib

/-!
# Bytes, hexadecimal text and UTF-8

Thirty-two byte digests with their order, their lower-case hexadecimal text, the
UTF-8 bytes of a string, and the one fact about separators that hashing relies on: a
text without NUL after a NUL can be told from what stands before it.
-/

namespace AtomrOntology

/-- A digest. -/
abbrev Bytes32 := Vector UInt8 32

/-- The UTF-8 bytes of a string. -/
def utf8 (s : String) : List UInt8 := s.toByteArray.data.toList

/-- Texts are told apart by their bytes. -/
theorem utf8_injective {s t : String} (h : utf8 s = utf8 t) : s = t :=
  String.toByteArray_inj.mp (ByteArray.ext (Array.toList_inj.mp h))

@[simp] theorem utf8_append (s t : String) : utf8 (s ++ t) = utf8 s ++ utf8 t := by
  simp [utf8, String.toByteArray_append]

namespace Hex

/-- The lower-case digit of a nibble. -/
def digit (n : Nat) : Char := if n < 10 then Char.ofNat (48 + n) else Char.ofNat (87 + n)

/-- The value of a digit of either case. -/
def value (c : Char) : Option Nat :=
  if '0' ≤ c ∧ c ≤ '9' then some (c.toNat - 48)
  else if 'a' ≤ c ∧ c ≤ 'f' then some (c.toNat - 87)
  else if 'A' ≤ c ∧ c ≤ 'F' then some (c.toNat - 55)
  else none

/-- `hex::encode`. -/
def encode (bytes : List UInt8) : String :=
  String.ofList (bytes.flatMap fun b => [digit (b.toNat / 16), digit (b.toNat % 16)])

/-- Why a text is not hexadecimal. -/
inductive FromHexError where
  | oddLength
  | invalidHexCharacter
deriving DecidableEq, Repr

def decodeChars : List Char → Except FromHexError (List UInt8)
  | [] => .ok []
  | [_] => .error .oddLength
  | a :: b :: rest =>
    match value a, value b with
    | some m, some n => do
      let bytes ← decodeChars rest
      pure (UInt8.ofNat (16 * m + n) :: bytes)
    | _, _ => .error .invalidHexCharacter

/-- `hex::decode`. -/
def decode (s : String) : Except FromHexError (List UInt8) := decodeChars s.toList

private theorem value_digit {n : Nat} (h : n < 16) : value (digit n) = some n := by
  interval_cases n <;> rfl

/-- Decoding undoes encoding. -/
theorem decode_encode (bytes : List UInt8) : decode (encode bytes) = .ok bytes := by
  rw [decode, encode, String.toList_ofList]
  induction bytes with
  | nil => rfl
  | cons b bytes ih =>
    have hb := b.toNat_lt
    have hm : value (digit (b.toNat / 16)) = some (b.toNat / 16) := value_digit (by omega)
    have hn : value (digit (b.toNat % 16)) = some (b.toNat % 16) := value_digit (by omega)
    have he : UInt8.ofNat (16 * (b.toNat / 16) + b.toNat % 16) = b := by
      rw [Nat.div_add_mod, UInt8.ofNat_toNat]
    simp only [List.flatMap_cons, List.cons_append, List.nil_append, decodeChars, hm, hn, ih, he]
    rfl

/-- Bytes are told apart by their hexadecimal text. -/
theorem encode_injective {a b : List UInt8} (h : encode a = encode b) : a = b := by
  have hd : decode (encode a) = decode (encode b) := by rw [h]
  rw [decode_encode, decode_encode] at hd
  exact Except.ok.inj hd

/-- Every byte takes two digits. -/
theorem length_encode (bytes : List UInt8) : (encode bytes).toList.length = 2 * bytes.length := by
  rw [encode, String.toList_ofList]
  induction bytes with
  | nil => rfl
  | cons b bytes ih =>
    simp only [List.flatMap_cons, List.length_append, ih, List.length_cons, List.length_nil]
    omega

end Hex

/-- The first separator splits: what stands before it is determined. -/
theorem split_first {α : Type} {sep : α} {s t u v : List α} (hs : sep ∉ s) (hu : sep ∉ u)
    (h : s ++ sep :: t = u ++ sep :: v) : s = u ∧ t = v := by
  induction s generalizing u with
  | nil =>
    cases u with
    | nil => exact ⟨rfl, (List.cons.inj h).2⟩
    | cons b u => exact absurd ((List.cons.inj h).1 ▸ List.mem_cons_self) hu
  | cons a s ih =>
    cases u with
    | nil => exact absurd ((List.cons.inj h).1 ▸ List.mem_cons_self) hs
    | cons b u =>
      obtain ⟨hab, h⟩ := List.cons.inj h
      obtain ⟨hsu, htv⟩ := ih (fun hm => hs (List.mem_cons_of_mem a hm))
        (fun hm => hu (List.mem_cons_of_mem b hm)) h
      exact ⟨by rw [hab, hsu], htv⟩

/-- The last separator splits: what stands after it is determined. -/
theorem split_last {α : Type} {sep : α} {s t u v : List α} (ht : sep ∉ t) (hv : sep ∉ v)
    (h : s ++ sep :: t = u ++ sep :: v) : s = u ∧ t = v := by
  have hr : t.reverse ++ sep :: s.reverse = v.reverse ++ sep :: u.reverse := by
    simpa using congrArg List.reverse h
  obtain ⟨htv, hsu⟩ := split_first (by simpa using ht) (by simpa using hv) hr
  exact ⟨List.reverse_injective hsu, List.reverse_injective htv⟩

end AtomrOntology
