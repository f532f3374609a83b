import AtomrOntology.Core.Float

/-!
# Numbers

Counting without an overflow, and what `str::parse` takes for an `i64` and for an `f64`. A
decimal is rounded to the nearest double, ties to even.
-/

namespace AtomrOntology

/-- `u64::saturating_add(1)`. -/
def saturatingSucc (v : UInt64) : UInt64 := if v = UInt64.ofNat (2 ^ 64 - 1) then v else v + 1

/-- The successor is the next number, unless it is the greatest one. -/
theorem toNat_saturatingSucc (v : UInt64) :
    (saturatingSucc v).toNat = min (v.toNat + 1) (2 ^ 64 - 1) := by
  have hv := v.toNat_lt
  unfold saturatingSucc
  by_cases h : v = UInt64.ofNat (2 ^ 64 - 1)
  · rw [if_pos h, h]
    rfl
  · have hne : v.toNat ≠ 2 ^ 64 - 1 := by
      intro he
      exact h (UInt64.toNat_inj.mp he)
    rw [if_neg h, UInt64.toNat_add]
    have hone : (1 : UInt64).toNat = 1 := rfl
    omega

/-- Only the greatest number is its own successor. -/
theorem saturatingSucc_eq_self_iff {v : UInt64} :
    saturatingSucc v = v ↔ v = UInt64.ofNat (2 ^ 64 - 1) := by
  unfold saturatingSucc
  by_cases h : v = UInt64.ofNat (2 ^ 64 - 1)
  · simp [h]
  · simp

/-- Decimal digits with an optional sign before them. -/
def signedDigits (cs : List Char) : Option Int :=
  let digits := if cs.head? = some '-' ∨ cs.head? = some '+' then cs.tail else cs
  if digits.isEmpty || !digits.all Char.isDigit then none
  else if cs.head? = some '-' then some (-(Nat.ofDigitChars 10 digits 0 : Int))
  else some (Nat.ofDigitChars 10 digits 0)

/-- `str::parse::<i64>`. -/
def parseI64 (s : String) : Option Int64 :=
  match signedDigits s.toList with
  | some i => if -2 ^ 63 ≤ i ∧ i < 2 ^ 63 then some (.ofInt i) else none
  | none => none

example : parseI64 "-12" = some (-12) ∧ parseI64 "+7" = some 7 ∧ parseI64 "-" = none ∧
    parseI64 "9223372036854775808" = none := by decide

/-- The exponent behind a decimal. -/
def parseExponent : List Char → Option Int
  | [] => some 0
  | c :: rest => if c = 'e' ∨ c = 'E' then signedDigits rest else none

/-- A decimal without a sign, digits and a dot in any arrangement with a digit. -/
def parseDecimal (cs : List Char) : Option (BitVec 64) :=
  let whole := cs.takeWhile Char.isDigit
  let rest := cs.dropWhile Char.isDigit
  let fraction := if rest.head? = some '.' then rest.tail.takeWhile Char.isDigit else []
  let rest := if rest.head? = some '.' then rest.tail.dropWhile Char.isDigit else rest
  if whole.isEmpty && fraction.isEmpty then none
  else (parseExponent rest).map fun exponent =>
    (Float.Model.ofScientific (Nat.ofDigitChars 10 (whole ++ fraction) 0)
      (exponent - fraction.length)).toBits.toBitVec

/-- What a text without a sign denotes, in any case of its letters. -/
def parseMagnitude (cs : List Char) : Option (BitVec 64) :=
  let lower := String.ofList (cs.map Char.toLower)
  if lower = "inf" ∨ lower = "infinity" then some 0x7ff0000000000000#64
  else if lower = "nan" then some F64.nan.bits
  else parseDecimal cs

/-- `str::parse::<f64>`. -/
def parseF64 (s : String) : Option F64 :=
  let cs := s.toList
  let unsigned := if cs.head? = some '-' ∨ cs.head? = some '+' then cs.tail else cs
  (parseMagnitude unsigned).map fun bits =>
    ⟨if cs.head? = some '-' then bits ||| 0x8000000000000000#64 else bits⟩

example : parseF64 "0.1" = some ⟨0x3fb999999999999a#64⟩ ∧ parseF64 "-1.E+3" =
    some ⟨0xc08f400000000000#64⟩ ∧ parseF64 "." = none := by decide +kernel

end AtomrOntology
