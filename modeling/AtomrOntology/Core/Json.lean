import AtomrOntology.Core.Float

/-!
# JSON documents

Documents as `serde_json` holds them: integers and floats are different numbers,
a float is always finite, and an object is a list of entries. Reading a printed
document back gives the same document up to what the reader makes of its floats,
and only while it is not nested too deeply.
-/

namespace AtomrOntology

/-- The integers a `serde_json::Number` can hold: those of `i64` and of `u64`. -/
abbrev JsonInt := {i : Int // -2 ^ 63 ≤ i ∧ i < 2 ^ 64}

/-- A JSON document. -/
inductive Json where
  | null
  | bool (b : Bool)
  | int (i : JsonInt)
  | float (f : FiniteF64)
  | str (s : String)
  | arr (items : List Json)
  | obj (entries : List (String × Json))

/-- Why a text is not read as a document, or a document not as a value. -/
inductive Json.DeError where
  | recursionLimitExceeded
  | numberOutOfRange
  | invalidType
  | invalidValue
  | missingField (name : String)
  | duplicateField
  | unknownVariant
  | custom
deriving DecidableEq, Repr

/-- What is left to `serde_json`: the text of a float, the float that text is read back
as (none when it is out of range), the nearest float to an integer, and the texts of its
errors. -/
class SerdeJson where
  floatText : FiniteF64 → String
  floatReread : FiniteF64 → Option FiniteF64
  floatOfInt : JsonInt → FiniteF64
  errorText : Json.DeError → String
  floatText_injective : ∀ f g, floatText f = floatText g → f = g
  /-- The text of a float is a number token. -/
  floatText_numeric : ∀ f, ∀ c ∈ (floatText f).toList, c.isDigit ∨ c ∈ ['-', '+', '.', 'e']
  /-- A float is never printed as an integer. -/
  floatText_fractional : ∀ f, '.' ∈ (floatText f).toList ∨ 'e' ∈ (floatText f).toList

namespace Json

mutual

/-- How many arrays and objects are open at the deepest point. -/
def depth : Json → Nat
  | .arr items => depthItems items + 1
  | .obj entries => depthEntries entries + 1
  | _ => 0

def depthItems : List Json → Nat
  | [] => 0
  | x :: xs => max (depth x) (depthItems xs)

def depthEntries : List (String × Json) → Nat
  | [] => 0
  | (_, x) :: xs => max (depth x) (depthEntries xs)

end

mutual

/-- No object repeats a key: what `serde_json::Value` can hold. -/
def DistinctKeys : Json → Bool
  | .arr items => distinctItems items
  | .obj entries => decide ((entries.map Prod.fst).Nodup) && distinctEntries entries
  | _ => true

def distinctItems : List Json → Bool
  | [] => true
  | x :: xs => DistinctKeys x && distinctItems xs

def distinctEntries : List (String × Json) → Bool
  | [] => true
  | (_, x) :: xs => DistinctKeys x && distinctEntries xs

end

mutual

/-- `PartialEq` of `serde_json::Value`: floats compare as floats. -/
def eq : Json → Json → Bool
  | .null, .null => true
  | .bool a, .bool b => a == b
  | .int i, .int j => i == j
  | .float f, .float g => f.val.eq g.val
  | .str s, .str t => s == t
  | .arr xs, .arr ys => eqItems xs ys
  | .obj xs, .obj ys => eqEntries xs ys
  | _, _ => false

def eqItems : List Json → List Json → Bool
  | [], [] => true
  | x :: xs, y :: ys => eq x y && eqItems xs ys
  | _, _ => false

def eqEntries : List (String × Json) → List (String × Json) → Bool
  | [], [] => true
  | (k, x) :: xs, (l, y) :: ys => k == l && eq x y && eqEntries xs ys
  | _, _ => false

end

variable [SerdeJson]

mutual

/-- What reading the printed document makes of it, apart from the nesting limit. -/
def reread : Json → Option Json
  | .float f => (SerdeJson.floatReread f).map .float
  | .arr items => (rereadItems items).map .arr
  | .obj entries => (rereadEntries entries).map .obj
  | j => some j

def rereadItems : List Json → Option (List Json)
  | [] => some []
  | x :: xs => (reread x).bind fun y => (rereadItems xs).map (y :: ·)

def rereadEntries : List (String × Json) → Option (List (String × Json))
  | [] => some []
  | (k, x) :: xs => (reread x).bind fun y => (rereadEntries xs).map ((k, y) :: ·)

end

/-- The reader refuses to open a hundred and twenty-eighth level. -/
def recursionLimit : Nat := 128

/-- `serde_json::from_str` after `serde_json::to_string`. -/
def reparse (j : Json) : Except DeError Json :=
  if j.depth < recursionLimit then
    match j.reread with
    | some j => .ok j
    | none => .error .numberOutOfRange
  else .error .recursionLimitExceeded

@[simp] theorem reread_null : (Json.null).reread = some .null := rfl
@[simp] theorem reread_bool (b : Bool) : (Json.bool b).reread = some (.bool b) := rfl
@[simp] theorem reread_int (i : JsonInt) : (Json.int i).reread = some (.int i) := rfl
@[simp] theorem reread_str (s : String) : (Json.str s).reread = some (.str s) := rfl

@[simp] theorem reread_float (f : FiniteF64) :
    (Json.float f).reread = (SerdeJson.floatReread f).map .float := rfl

@[simp] theorem reread_arr (items : List Json) :
    (Json.arr items).reread = (rereadItems items).map .arr := rfl

@[simp] theorem reread_obj (entries : List (String × Json)) :
    (Json.obj entries).reread = (rereadEntries entries).map .obj := rfl

@[simp] theorem rereadItems_nil : rereadItems [] = some [] := rfl

@[simp] theorem rereadItems_cons (x : Json) (xs : List Json) :
    rereadItems (x :: xs) = x.reread.bind fun y => (rereadItems xs).map (y :: ·) := rfl

@[simp] theorem rereadEntries_nil : rereadEntries [] = some [] := rfl

@[simp] theorem rereadEntries_cons (k : String) (x : Json) (xs : List (String × Json)) :
    rereadEntries ((k, x) :: xs) =
      x.reread.bind fun y => (rereadEntries xs).map ((k, y) :: ·) := rfl

/-- A document is read back exactly when it is shallow and its floats are in range. -/
theorem reparse_eq_ok {j j' : Json} :
    j.reparse = .ok j' ↔ j.depth < recursionLimit ∧ j.reread = some j' := by
  unfold reparse
  by_cases hd : j.depth < recursionLimit
  · rw [if_pos hd]
    cases j.reread with
    | none => simp [hd]
    | some i => simp [hd]
  · rw [if_neg hd]
    simp [hd]

/-- Entries read back one after another. -/
theorem rereadEntries_append (xs ys : List (String × Json)) :
    rereadEntries (xs ++ ys) =
      (rereadEntries xs).bind fun us => (rereadEntries ys).map (us ++ ·) := by
  induction xs with
  | nil => simp
  | cons e xs ih =>
    obtain ⟨k, x⟩ := e
    rw [List.cons_append, rereadEntries_cons, rereadEntries_cons, ih]
    cases x.reread with
    | none => rfl
    | some y => cases rereadEntries xs <;> simp [Function.comp_def]

/-- Reading back keeps the keys of an object and their order. -/
theorem map_fst_rereadEntries {xs ys : List (String × Json)}
    (h : rereadEntries xs = some ys) : ys.map Prod.fst = xs.map Prod.fst := by
  induction xs generalizing ys with
  | nil =>
    cases h
    rfl
  | cons e xs ih =>
    obtain ⟨k, x⟩ := e
    simp only [rereadEntries_cons, Option.bind_eq_some_iff, Option.map_eq_some_iff] at h
    obtain ⟨y, _, zs, hzs, rfl⟩ := h
    rw [List.map_cons, List.map_cons, ih hzs]

end Json

end AtomrOntology
