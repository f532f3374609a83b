import Mathlib

/-!
# Double-precision floats

A double is its bit pattern. Comparison follows the format: not-a-number is
unordered and different from itself, and the two zeros are equal.
-/

namespace AtomrOntology

/-- An IEEE 754 binary64 value. -/
structure F64 where
  bits : BitVec 64
deriving DecidableEq, Repr

namespace F64

/-- The biased exponent. -/
def exponent (f : F64) : BitVec 11 := f.bits.extractLsb' 52 11

/-- Everything but the sign bit. -/
def magnitude (f : F64) : BitVec 63 := f.bits.extractLsb' 0 63

/-- Infinities and not-a-number have an all-ones exponent. -/
def isFinite (f : F64) : Bool := f.exponent != BitVec.allOnes 11

/-- An all-ones exponent with a non-zero fraction. -/
def isNan (f : F64) : Bool := !f.isFinite && f.bits.extractLsb' 0 52 != 0#52

/-- The position of a value on the line of finite values, zeros together. -/
def rank (f : F64) : Int := if f.bits.msb then -(f.magnitude.toNat : Int) else f.magnitude.toNat

/-- `PartialEq` of `f64`. -/
def eq (f g : F64) : Bool := !f.isNan && !g.isNan && f.rank == g.rank

/-- `PartialOrd` of `f64`. -/
def partialCmp (f g : F64) : Option Ordering :=
  if f.isNan || g.isNan then none else some (compare f.rank g.rank)

/-- The quiet not-a-number that `f64::NAN` denotes. -/
def nan : F64 := ⟨0x7ff8000000000000#64⟩

/-- The bit pattern of `1.0`. -/
def one : F64 := ⟨0x3ff0000000000000#64⟩

example : nan.isNan ∧ nan.eq nan = false := by decide

end F64

/-- A double that a JSON number can hold. -/
abbrev FiniteF64 := {f : F64 // f.isFinite}

end AtomrOntology
