import AtomrOntology.Core.Bytes
import AtomrOntology.Core.Serde

/-!
# Identifiers

Every entity is named by a 32-byte digest. The kinds are different types, so a node
id is never taken for an edge id, and each kind hashes under a context of its own.
-/

namespace AtomrOntology

/-- What an identifier names. -/
inductive IdKind where
  | node
  | edge
  | record
  | provenance
  | ontologyAxiom
  | commit
deriving DecidableEq, Repr

/-- The 32 bytes of an identifier. -/
structure Id (kind : IdKind) where
  bytes : Bytes32
deriving DecidableEq

abbrev NodeId := Id .node
abbrev EdgeId := Id .edge
abbrev ProvenanceId := Id .provenance
abbrev AxiomId := Id .ontologyAxiom
abbrev CommitId := Id .commit

namespace Id

variable {kind : IdKind}

/-- The id of 32 equal bytes. -/
def filled (b : UInt8) : Id kind := ⟨Vector.replicate 32 b⟩

/-- Ids filled with different bytes are different. -/
@[simp] theorem filled_inj {a b : UInt8} : (filled a : Id kind) = filled b ↔ a = b := by
  constructor
  · intro h
    exact congrArg (fun id : Id kind => id.bytes[0]) h
  · intro h
    rw [h]

/-- Identifiers are ordered by their bytes. -/
instance : Ord (Id kind) := ⟨fun a b => compare a.bytes b.bytes⟩

instance : Std.TransOrd (Id kind) where
  eq_swap := Std.OrientedOrd.eq_swap (α := Bytes32)
  isLE_trans := Std.TransOrd.isLE_trans (α := Bytes32)

instance : Std.LawfulEqOrd (Id kind) where
  compare_self := Std.ReflOrd.compare_self (α := Bytes32)
  eq_of_compare {a b} h := by
    cases a
    cases b
    rw [Id.mk.injEq]
    exact Std.LawfulEqOrd.eq_of_compare (α := Bytes32) h

/-- The display form. -/
def toHex (id : Id kind) : String := Hex.encode id.bytes.toList

/-- A text that ends in the display form of an id determines the id. -/
theorem eq_of_append_toHex {s t : String} {a b : Id kind} (h : s ++ a.toHex = t ++ b.toHex) :
    a = b := by
  have hl : (a.toHex.toList).length = b.toHex.toList.length := by
    simp only [toHex, Hex.length_encode, Vector.length_toList]
  have hc := congrArg String.toList h
  rw [String.toList_append, String.toList_append] at hc
  have hhex := Hex.encode_injective (String.toList_inj.mp (List.append_inj' hc hl).2)
  cases a
  cases b
  exact congrArg Id.mk (Vector.toList_inj.mp hhex)

end Id

/-- `blake3` in key-derivation mode: a digest of a context and an input. -/
class Blake3 where
  deriveKey : String → List UInt8 → Bytes32

/-- A digest for running the model: the beginning of the input. -/
abbrev Blake3.beginning : Blake3 := ⟨fun _ input => Vector.ofFn fun i => input.getD i 0⟩

/-- A digest for running the model: the length of the input. -/
abbrev Blake3.ofLength : Blake3 :=
  ⟨fun _ input => Vector.replicate 32 (UInt8.ofNat input.length)⟩

/-- The name of an id type, as the `define_id!` macro spells it into the context. -/
def IdKind.typeName : IdKind → String
  | .node => "NodeId"
  | .edge => "EdgeId"
  | .record => "RecordId"
  | .provenance => "ProvenanceId"
  | .ontologyAxiom => "AxiomId"
  | .commit => "CommitId"

/-- The id of given content. -/
def Id.contentAddress [Blake3] {kind : IdKind} (input : List UInt8) : Id kind :=
  ⟨Blake3.deriveKey ("atomr-ontology-core/id/v1/" ++ kind.typeName ++ "/content") input⟩

/-- Why a text is not an id. -/
inductive IdError where
  | invalidHex (e : Hex.FromHexError)
  | wrongLength (n : Nat)
deriving DecidableEq, Repr

/-- Thirty-two bytes out of a byte sequence. -/
def Bytes32.ofList? (bytes : List UInt8) : Option Bytes32 :=
  if h : bytes.length = 32 then some ⟨bytes.toArray, by simpa using h⟩ else none

/-- The bytes of an id make up the id. -/
@[simp] theorem Bytes32.ofList?_toList (b : Bytes32) : Bytes32.ofList? b.toList = some b := by
  simp [Bytes32.ofList?, Vector.toList]

namespace Codec

def u8 : Codec UInt8 :=
  ints (fun n => ⟨n.toNat, by have := n.toNat_lt; omega⟩)
    fun i => if 0 ≤ i.val ∧ i.val < 256 then some (UInt8.ofNat i.val.toNat) else none

def u32 : Codec UInt32 :=
  ints (fun n => ⟨n.toNat, by have := n.toNat_lt; omega⟩)
    fun i => if 0 ≤ i.val ∧ i.val < 2 ^ 32 then some (UInt32.ofNat i.val.toNat) else none

def u64 : Codec UInt64 :=
  ints (fun n => ⟨n.toNat, by have := n.toNat_lt; omega⟩)
    fun i => if 0 ≤ i.val then some (UInt64.ofNat i.val.toNat) else none

def i64 : Codec Int64 :=
  ints (fun n => ⟨n.toInt, by have := n.le_toInt; have := n.toInt_lt; omega⟩)
    fun i => if i.val < 2 ^ 63 then some (Int64.ofInt i.val) else none

/-- Bytes are written as an array of numbers. -/
def bytes : Codec (List UInt8) := list u8

/-- `serde_bytes::ByteBuf`: written like bytes, and read from those or from a string. -/
def byteBuf : Codec (List UInt8) where
  ser := bytes.ser
  de
    | .str s => .ok (utf8 s)
    | j => bytes.de j

/-- An id is written as the array of its bytes. -/
def id {kind : IdKind} : Codec (Id kind) where
  ser x := byteBuf.ser x.bytes.toList
  de j := do
    let raw ← byteBuf.de j
    match Bytes32.ofList? raw with
    | some b => pure ⟨b⟩
    | none => .error .invalidValue

variable [SerdeJson]

@[simp] theorem survives_u8 (n : UInt8) : u8.Survives n := by
  have := n.toNat_lt
  simp [u8]
  omega

@[simp] theorem survives_u32 (n : UInt32) : u32.Survives n := by
  have := n.toNat_lt
  simp [u32]
  omega

@[simp] theorem survives_u64 (n : UInt64) : u64.Survives n := by
  simp [u64]

@[simp] theorem survives_i64 (n : Int64) : i64.Survives n := by
  have := n.toInt_lt
  simp [i64]
  omega

/-- Every list of bytes is read back. -/
@[simp] theorem survives_bytes (bs : List UInt8) : bytes.Survives bs := by
  simp [bytes]

/-- Every buffer of bytes is read back. -/
@[simp] theorem survives_byteBuf (bs : List UInt8) : byteBuf.Survives bs := by
  obtain ⟨j, hj, hd⟩ := survives_bytes bs
  refine ⟨j, hj, ?_⟩
  cases j with
  | str s => cases hd
  | _ => exact hd

/-- Every id is read back. -/
@[simp] theorem survives_id {kind : IdKind} (x : Id kind) : id.Survives x := by
  obtain ⟨j, hj, hd⟩ := survives_byteBuf x.bytes.toList
  refine ⟨j, hj, bind_eq_ok.mpr ⟨_, hd, ?_⟩⟩
  rw [Bytes32.ofList?_toList]
  rfl

omit [SerdeJson] in
/-- An id is not written as null. -/
@[simp] theorem id_ne_null {kind : IdKind} (x : Id kind) : id.ser x ≠ .null := by
  simp [id, byteBuf, bytes, list]

end Codec

end AtomrOntology
