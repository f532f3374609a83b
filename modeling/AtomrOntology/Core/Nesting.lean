import AtomrOntology.Core.Serde

/-!
# How deeply written values nest

The reader bounds how many arrays and objects are open at once. For every codec
combinator the bound on a written value is a bound on its parts, one level lower
under an array or an object.
-/

namespace AtomrOntology

namespace Json

/-- Items nest as deeply as the deepest one. -/
theorem depthItems_le {xs : List Json} {n : Nat} :
    depthItems xs ≤ n ↔ ∀ x ∈ xs, x.depth ≤ n := by
  induction xs with
  | nil => simp [depthItems]
  | cons x xs ih => simp [depthItems, ih]

/-- Entries nest as deeply as the deepest value. -/
theorem depthEntries_le {xs : List (String × Json)} {n : Nat} :
    depthEntries xs ≤ n ↔ ∀ e ∈ xs, e.2.depth ≤ n := by
  induction xs with
  | nil => simp [depthEntries]
  | cons e xs ih => simp [depthEntries, ih]

end Json

/-- What is written for a value has at most `n` arrays and objects open at once. -/
def Codec.Fits {α : Type} (c : Codec α) (n : Nat) (x : α) : Prop := (c.ser x).depth ≤ n

/-- The entries written for a value fit under one object. -/
def Fields.Fits {names : List String} {α : Type} (f : Fields names α) (n : Nat) (x : α) : Prop :=
  ∀ e ∈ f.ser x, e.2.depth ≤ n

namespace Codec

variable {α β : Type} {n : Nat}

/-- What a codec writes nests within a bound exactly if the value fits it. -/
theorem depth_ser_le {c : Codec α} {x : α} : (c.ser x).depth ≤ n ↔ c.Fits n x := Iff.rfl

@[simp] theorem fits_bool (b : Bool) : bool.Fits n b := Nat.zero_le n

/-- Texts do not nest. -/
@[simp] theorem fits_strings {print : α → String} {read : String → Option α} (x : α) :
    (strings print read).Fits n x := Nat.zero_le n

@[simp] theorem fits_string (s : String) : string.Fits n s := Nat.zero_le n

/-- Numbers do not nest. -/
@[simp] theorem fits_ints {print : α → JsonInt} {read : JsonInt → Option α} (x : α) :
    (ints print read).Fits n x := Nat.zero_le n

/-- Arbitrary values nest as deeply as they do. -/
@[simp] theorem fits_value {j : {j : Json // j.DistinctKeys}} :
    value.Fits n j ↔ j.val.depth ≤ n := Iff.rfl

@[simp] theorem fits_f64 [SerdeJson] (f : F64) : f64.Fits n f := by
  simp only [Fits, f64]
  split <;> exact Nat.zero_le n

/-- Values fit as those that they stand for. -/
@[simp] theorem fits_iso {c : Codec α} {e : β ≃ α} {x : β} :
    (c.iso e).Fits n x ↔ c.Fits n (e x) := Iff.rfl

/-- Values fit as those that they are written as. -/
@[simp] theorem fits_refine {ε : Type} {c : Codec α} {wire : β → α} {unwire : α → Except ε β}
    {x : β} : (c.refine wire unwire).Fits n x ↔ c.Fits n (wire x) := Iff.rfl

/-- A list takes one level, and leaves the others to its items. -/
@[simp] theorem fits_list {c : Codec α} {xs : List α} :
    c.list.Fits n xs ↔ 0 < n ∧ ∀ x ∈ xs, c.Fits (n - 1) x := by
  cases n with
  | zero => simp [Fits, list, Json.depth]
  | succ n => simp [Fits, list, Json.depth, Json.depthItems_le]

/-- A pair takes one level, and leaves the others to its parts. -/
@[simp] theorem fits_pair {c : Codec α} {d : Codec β} {x : α × β} :
    (pair c d).Fits n x ↔ 0 < n ∧ c.Fits (n - 1) x.1 ∧ d.Fits (n - 1) x.2 := by
  cases n with
  | zero => simp [Fits, pair, Json.depth]
  | succ n => simp [Fits, pair, Json.depth, Json.depthItems]

/-- A missing value does not nest. -/
@[simp] theorem fits_option {c : Codec α} {x : Option α} :
    c.option.Fits n x ↔ ∀ y, x = some y → c.Fits n y := by
  cases x with
  | none => simp [Fits, option, Json.depth]
  | some y => simp [Fits, option]

/-- A map takes one level, and leaves the others to its values. -/
@[simp] theorem fits_map {c : Codec α} {m : BTreeMap String α} :
    c.map.Fits n m ↔ 0 < n ∧ ∀ x ∈ m.vals, c.Fits (n - 1) x := by
  cases n with
  | zero => simp [Fits, map, Json.depth]
  | succ n =>
    simp only [Fits, map, Json.depth, Nat.add_le_add_iff_right, Json.depthEntries_le,
      BTreeMap.vals, List.forall_mem_map]
    simp

/-- A record takes one level, and leaves the others to its fields. -/
@[simp] theorem fits_record {names : List String} {f : Fields names α} {x : α} :
    (record f).Fits n x ↔ 0 < n ∧ f.Fits (n - 1) x := by
  cases n with
  | zero => simp [Fits, record, Json.depth]
  | succ n => simp [Fits, Fields.Fits, record, Json.depth, Json.depthEntries_le]

end Codec

namespace Fields

variable {α β : Type} {n : Nat} {name : String} {c : Codec α}

/-- A field that is written fits when its value does. -/
theorem fits_field {missing : Option α} {skip : α → Bool} {h : ∀ x, skip x → missing = some x}
    {x : α} : (field name c missing skip h).Fits n x ↔ (skip x = false → c.Fits n x) := by
  cases hs : skip x <;> simp [Fits, field, hs, Codec.Fits]

/-- A required field nests as its value. -/
@[simp] theorem fits_required {x : α} : (required name c).Fits n x ↔ c.Fits n x := by
  simp [required, fits_field]

/-- An optional field nests as its value, if there is one. -/
@[simp] theorem fits_optional {x : Option α} :
    (optional name c).Fits n x ↔ ∀ y, x = some y → c.Fits n y := by
  simp [optional, fits_field]

/-- A field with a default nests as its value. -/
@[simp] theorem fits_defaulted {d x : α} : (defaulted name c d).Fits n x ↔ c.Fits n x := by
  simp [defaulted, fits_field]

/-- A field that is left out if missing nests as its value otherwise. -/
@[simp] theorem fits_skipNone {x : Option α} :
    (skipNone name c).Fits n x ↔ ∀ y, x = some y → c.Fits n y := by
  cases x <;> simp [skipNone, fits_field]

/-- A field that is left out if empty nests as its list otherwise. -/
@[simp] theorem fits_skipEmpty {xs : List α} :
    (skipEmpty name c).Fits n xs ↔ (xs ≠ [] → c.list.Fits n xs) := by
  cases xs <;> simp [skipEmpty, fits_field]

/-- A field that is left out if empty nests as its map otherwise. -/
@[simp] theorem fits_skipEmptyMap {m : BTreeMap String α} :
    (skipEmptyMap name c).Fits n m ↔ (m.isEmpty = false → c.map.Fits n m) := by
  simp only [skipEmptyMap, fits_field]

/-- The fields of two records fit if those of each do. -/
@[simp] theorem fits_both {names names' : List String} {f : Fields names α}
    {g : Fields names' β} {h : ∀ n ∈ names, n ∉ names'} {x : α × β} :
    (both f g h).Fits n x ↔ f.Fits n x.1 ∧ g.Fits n x.2 := by
  simp only [Fits, both, List.mem_append, or_imp, forall_and]

end Fields

end AtomrOntology
