import AtomrOntology.Core.OrderedMap
import AtomrOntology.Core.Json

/-!
# Writing values to JSON and reading them back

A codec is the pair of functions a derived `Serialize` and `Deserialize` give a type.
Codecs are built from the codecs of parts the way the derives build them: structs
from named fields, sequences, options and string-keyed maps. A value *survives* when
reading back what was written for it gives the value itself, and for every
combinator this is decided by the survival of the parts.
-/

namespace AtomrOntology

open Json

/-- The outcome of reading a document as a value. -/
abbrev De (α : Type) := Except DeError α

/-- What goes on successfully has succeeded before. -/
theorem bind_eq_ok {ε α β : Type} {x : Except ε α} {f : α → Except ε β} {b : β} :
    (x >>= f) = .ok b ↔ ∃ a, x = .ok a ∧ f a = .ok b := by
  cases x with
  | error e => simp [Bind.bind, Except.bind]
  | ok a => simp [Bind.bind, Except.bind]

/-- How the values of a type are written and read. -/
structure Codec (α : Type) where
  ser : α → Json
  de : Json → De α

namespace Codec

variable {α β : Type}

def bool : Codec Bool where
  ser := .bool
  de
    | .bool b => .ok b
    | _ => .error .invalidType

/-- A type written as a string. -/
def strings (print : α → String) (read : String → Option α) : Codec α where
  ser x := .str (print x)
  de
    | .str s => match read s with
      | some x => .ok x
      | none => .error .invalidValue
    | _ => .error .invalidType

def string : Codec String := strings id some

/-- An integer type: the numbers in its range. -/
def ints (print : α → JsonInt) (read : JsonInt → Option α) : Codec α where
  ser x := .int (print x)
  de
    | .int i => match read i with
      | some x => .ok x
      | none => .error .invalidValue
    | _ => .error .invalidType

/-- `serde_json::Value` itself: whatever it can hold. -/
def value : Codec {j : Json // j.DistinctKeys} where
  ser j := j.val
  de j := if h : j.DistinctKeys then .ok ⟨j, h⟩ else .error .invalidValue

/-- A float: one that JSON cannot express is written as `null`, which is not read as a
float. -/
def f64 [SerdeJson] : Codec F64 where
  ser f := if h : f.isFinite then .float ⟨f, h⟩ else .null
  de
    | .float f => .ok f.val
    | .int i => .ok (SerdeJson.floatOfInt i).val
    | _ => .error .invalidType

/-- Another type with the same values. -/
def iso (c : Codec α) (e : β ≃ α) : Codec β where
  ser x := c.ser (e x)
  de j := do
    let x ← c.de j
    pure (e.symm x)

def list (c : Codec α) : Codec (List α) where
  ser xs := .arr (xs.map c.ser)
  de
    | .arr items => items.mapM c.de
    | _ => .error .invalidType

/-- A pair: an array of two items. -/
def pair (c : Codec α) (d : Codec β) : Codec (α × β) where
  ser x := .arr [c.ser x.1, d.ser x.2]
  de
    | .arr [i, j] => do
      let a ← c.de i
      let b ← d.de j
      pure (a, b)
    | .arr _ => .error .invalidValue
    | _ => .error .invalidType

/-- Absence is written as `null`. -/
def option (c : Codec α) : Codec (Option α) where
  ser
    | none => .null
    | some x => c.ser x
  de
    | .null => .ok none
    | j => do
      let x ← c.de j
      pure (some x)

/-- A map with string keys: an object with the entries in key order. -/
def map (c : Codec α) : Codec (BTreeMap String α) where
  ser m := .obj (m.toList.map fun kv => (kv.1, c.ser kv.2))
  de
    | .obj entries => do
      let kvs ← entries.mapM fun kv => do
        let v ← c.de kv.2
        pure (kv.1, v)
      pure (Std.ExtTreeMap.ofList kvs compare)
    | _ => .error .invalidType

end Codec

/-- The fields of a struct, with their names: what they write into the object, and how
they are read through lookups by name. -/
structure Fields (names : List String) (α : Type) where
  ser : α → List (String × Json)
  de : (String → Option Json) → De α
  names_nodup : names.Nodup
  ser_names : ∀ x, List.Sublist ((ser x).map Prod.fst) names
  /-- Only the struct's own names are looked up. -/
  de_local : ∀ get get' : String → Option Json, (∀ n ∈ names, get n = get' n) → de get = de get'

namespace Fields

variable {α β : Type}

/-- One field. A field that may be missing has the value it then takes, and a field
whose value is skipped when writing must be skipped at that value. -/
def field (name : String) (c : Codec α) (missing : Option α) (skip : α → Bool)
    (h : ∀ x, skip x → missing = some x) : Fields [name] α where
  ser x := if skip x then [] else [(name, c.ser x)]
  de get := match get name with
    | some j => c.de j
    | none => match missing with
      | some d => .ok d
      | none => .error (.missingField name)
  names_nodup := List.nodup_singleton name
  ser_names x := by
    have := h
    split <;> simp
  de_local get get' hg := by rw [hg name List.mem_cons_self]

/-- A plain field. -/
def required (name : String) (c : Codec α) : Fields [name] α :=
  field name c none (fun _ => false) (by simp)

/-- A field of `Option` type: read as absent when it is missing. -/
def optional (name : String) (c : Codec α) : Fields [name] (Option α) :=
  field name c.option (some none) (fun _ => false) (by simp)

/-- A field marked `default`. -/
def defaulted (name : String) (c : Codec α) (d : α) : Fields [name] α :=
  field name c (some d) (fun _ => false) (by simp)

/-- A field marked `default` and `skip_serializing_if = "Option::is_none"`. -/
def skipNone (name : String) (c : Codec α) : Fields [name] (Option α) :=
  field name c.option (some none) Option.isNone (by simp)

/-- A field marked `default` and `skip_serializing_if = "Vec::is_empty"`. -/
def skipEmpty (name : String) (c : Codec α) : Fields [name] (List α) :=
  field name c.list (some []) List.isEmpty fun _ h => by rw [List.isEmpty_iff.mp h]

/-- A field marked `default` and `skip_serializing_if = "BTreeMap::is_empty"`. -/
def skipEmptyMap (name : String) (c : Codec α) : Fields [name] (BTreeMap String α) :=
  field name c.map (some ∅) Std.ExtTreeMap.isEmpty fun m h => by
    rw [Std.ExtTreeMap.isEmpty_iff.mp h]

/-- The fields of an empty struct. -/
def unit : Fields [] Unit where
  ser _ := []
  de _ := .ok ()
  names_nodup := List.nodup_nil
  ser_names _ := by simp
  de_local _ _ _ := rfl

/-- The fields of one struct followed by those of another with other names. -/
def both {names names' : List String} (f : Fields names α) (g : Fields names' β)
    (h : ∀ n ∈ names, n ∉ names' := by decide) : Fields (names ++ names') (α × β) where
  ser x := f.ser x.1 ++ g.ser x.2
  de get := do
    let a ← f.de get
    let b ← g.de get
    pure (a, b)
  names_nodup := List.nodup_append.mpr ⟨f.names_nodup, g.names_nodup,
    fun n ha _ hb hab => h n ha (hab ▸ hb)⟩
  ser_names x := by
    rw [List.map_append]
    exact (f.ser_names x.1).append (g.ser_names x.2)
  de_local get get' hg := by
    rw [f.de_local get get' fun n hn => hg n (List.mem_append_left _ hn),
      g.de_local get get' fun n hn => hg n (List.mem_append_right _ hn)]

end Fields

/-- The codec of a struct. -/
def Codec.record {names : List String} {α : Type} (f : Fields names α) : Codec α where
  ser x := .obj (f.ser x)
  de
    | .obj entries =>
      if ((entries.map Prod.fst).filter (· ∈ names)).Nodup then
        f.de fun n => entries.lookup n
      else .error .duplicateField
    | _ => .error .invalidType

/-- Every member of a list has its partner in the other one. -/
private theorem exists_partner {α β : Type} {R : α → β → Prop} {xs : List α} {ys : List β}
    (h : List.Forall₂ R xs ys) {x : α} (hx : x ∈ xs) : ∃ y ∈ ys, R x y := by
  induction h with
  | nil => cases hx
  | cons hr _ ih =>
    rcases List.mem_cons.mp hx with rfl | hx
    · exact ⟨_, List.mem_cons_self, hr⟩
    · obtain ⟨y, hy, hr⟩ := ih hx
      exact ⟨y, List.mem_cons_of_mem _ hy, hr⟩

/-- Converting and adding one item after another is converting all and then adding. -/
theorem foldlM_eq_ok {ε α β σ : Type} {f : α → Except ε β} {add : σ → β → σ} {xs : List α}
    {s t : σ} : (xs.foldlM (fun s x => do return add s (← f x)) s : Except ε σ) = .ok t ↔
      ∃ ys, List.Forall₂ (fun x y => f x = .ok y) xs ys ∧ ys.foldl add s = t := by
  induction xs generalizing s with
  | nil => simp [pure, Except.pure]
  | cons x xs ih =>
    rw [List.foldlM_cons, bind_eq_ok]
    constructor
    · intro h
      obtain ⟨u, hu, hrest⟩ := h
      obtain ⟨y, hy, hadd⟩ := bind_eq_ok.mp hu
      obtain ⟨ys, hys, ht⟩ := ih.mp hrest
      refine ⟨y :: ys, .cons hy hys, ?_⟩
      rw [List.foldl_cons, ← ht, ← Except.ok.inj hadd]
    · intro h
      obtain ⟨ys, hys, ht⟩ := h
      cases hys with
      | cons hy hys =>
        exact ⟨_, bind_eq_ok.mpr ⟨_, hy, rfl⟩, ih.mpr ⟨_, hys, ht⟩⟩

/-- A key that is not in the second part is looked up in the first. -/
private theorem lookup_append_left {xs ys : List (String × Json)} {n : String}
    (h : n ∉ ys.map Prod.fst) : (xs ++ ys).lookup n = xs.lookup n := by
  have hn : ys.lookup n = none := by
    rw [List.lookup_eq_none_iff]
    intro kv hkv
    simpa [bne_iff_ne] using fun he : n = kv.1 => h (he ▸ List.mem_map_of_mem hkv)
  rw [List.lookup_append, hn, Option.or_none]

/-- A key that is not in the first part is looked up in the second. -/
private theorem lookup_append_right {xs ys : List (String × Json)} {n : String}
    (h : n ∉ xs.map Prod.fst) : (xs ++ ys).lookup n = ys.lookup n := by
  have hn : xs.lookup n = none := by
    rw [List.lookup_eq_none_iff]
    intro kv hkv
    simpa [bne_iff_ne] using fun he : n = kv.1 => h (he ▸ List.mem_map_of_mem hkv)
  rw [List.lookup_append, hn, Option.none_or]

/-- A map written as the list of its values, and rebuilt by inserting them under their
keys. -/
def Codec.keyed {κ ν : Type} [Ord κ] [Std.TransOrd κ] (c : Codec ν) (key : ν → κ) :
    Codec (BTreeMap κ ν) where
  ser m := c.list.ser m.vals
  de j := do
    let vs ← c.list.de j
    pure (BTreeMap.insertAll key ∅ vs)

/-- A codec followed by a conversion that can fail. -/
def Codec.refine {α β ε : Type} (c : Codec α) (wire : β → α) (unwire : α → Except ε β) :
    Codec β where
  ser x := c.ser (wire x)
  de j := do
    let a ← c.de j
    match unwire a with
    | .ok b => pure b
    | .error _ => .error .custom

section Reads

variable {α β : Type} [SerdeJson]

/-- Reading back what was written for `x` gives `y`. -/
def Codec.Reads (c : Codec α) (x y : α) : Prop :=
  ∃ j, (c.ser x).reread = some j ∧ c.de j = .ok y

/-- Reading back the fields of `x` gives `y`. -/
def Fields.Reads {names : List String} (f : Fields names α) (x y : α) : Prop :=
  ∃ l, rereadEntries (f.ser x) = some l ∧ f.de (fun n => l.lookup n) = .ok y

/-- Reading back what was written for a value gives the value. -/
def Codec.Survives (c : Codec α) (x : α) : Prop := c.Reads x x

namespace Codec

/-- Reading back has at most one result. -/
theorem Reads.unique {c : Codec α} {x y z : α} (hy : c.Reads x y) (hz : c.Reads x z) : y = z := by
  obtain ⟨j, hj, hdy⟩ := hy
  obtain ⟨i, hi, hdz⟩ := hz
  rw [hj, Option.some.injEq] at hi
  rw [← hi, hdy] at hdz
  exact Except.ok.inj hdz

/-- What survives is read back as itself only. -/
theorem Survives.reads_iff {c : Codec α} {x y : α} (h : c.Survives x) : c.Reads x y ↔ y = x :=
  ⟨fun hy => hy.unique h, fun hy => hy ▸ h⟩

/-- Different values that survive are written differently. -/
theorem ser_injective {c : Codec α} {x y : α} (hx : c.Survives x) (hy : c.Survives y)
    (h : c.ser x = c.ser y) : x = y := by
  have hxy : c.Reads y x := by
    obtain ⟨j, hj, hd⟩ := hx
    exact ⟨j, h ▸ hj, hd⟩
  exact hxy.unique hy

omit [SerdeJson] in
@[simp] theorem ser_iso (c : Codec α) (e : β ≃ α) (x : β) : (c.iso e).ser x = c.ser (e x) := rfl

omit [SerdeJson] in
/-- A text is not null. -/
@[simp] theorem strings_ne_null (print : α → String) (read : String → Option α) (x : α) :
    (strings print read).ser x ≠ .null := by
  simp [strings]

@[simp] theorem survives_bool (b : Bool) : bool.Survives b := ⟨_, rfl, rfl⟩

/-- A text is read if its value can be. -/
theorem reads_strings {print : α → String} {read : String → Option α} {x y : α} :
    (strings print read).Reads x y ↔ read (print x) = some y := by
  constructor
  · rintro ⟨j, hj, hd⟩
    simp only [strings, reread_str, Option.some.injEq] at hj
    subst hj
    simp only [strings] at hd
    split at hd
    · next z hz => rw [hz, Except.ok.inj hd]
    · cases hd
  · intro h
    exact ⟨_, rfl, by simp only [strings, h]⟩

/-- A value survives as a text if it is read back from it. -/
@[simp] theorem survives_strings {print : α → String} {read : String → Option α} {x : α} :
    (strings print read).Survives x ↔ read (print x) = some x := reads_strings

omit [SerdeJson] in
@[simp] theorem string_ne_null (s : String) : string.ser s ≠ .null := by
  simp [string]

@[simp] theorem survives_string (s : String) : string.Survives s := survives_strings.mpr rfl

/-- A value survives as a number if it is read back from it. -/
@[simp] theorem survives_ints {print : α → JsonInt} {read : JsonInt → Option α} {x : α} :
    (ints print read).Survives x ↔ read (print x) = some x := by
  constructor
  · rintro ⟨j, hj, hd⟩
    simp only [ints, reread_int, Option.some.injEq] at hj
    subst hj
    simp only [ints] at hd
    split at hd
    · next y hy => rw [hy, Except.ok.inj hd]
    · cases hd
  · intro h
    exact ⟨_, rfl, by simp only [ints, h]⟩

/-- A free document survives when the reader restores its floats. -/
@[simp] theorem survives_value {j : {j : Json // j.DistinctKeys}} :
    value.Survives j ↔ j.val.reread = some j.val := by
  constructor
  · rintro ⟨i, hi, hd⟩
    simp only [value] at hi hd
    split at hd
    · rw [hi, ← Except.ok.inj hd]
    · cases hd
  · intro h
    exact ⟨_, h, by simp [value, j.property]⟩

/-- A float survives when it is finite and read back exactly. -/
@[simp] theorem survives_f64 {f : F64} :
    f64.Survives f ↔ ∃ h : f.isFinite, SerdeJson.floatReread ⟨f, h⟩ = some ⟨f, h⟩ := by
  by_cases hf : f.isFinite
  · constructor
    · rintro ⟨j, hj, hd⟩
      simp only [f64, dif_pos hf, reread_float, Option.map_eq_some_iff] at hj
      obtain ⟨g, hg, rfl⟩ := hj
      refine ⟨hf, ?_⟩
      rw [hg, Option.some.injEq]
      exact Subtype.ext (Except.ok.inj hd)
    · rintro ⟨h, hr⟩
      refine ⟨.float ⟨f, h⟩, ?_, rfl⟩
      simp only [f64, dif_pos h, reread_float, hr, Option.map_some]
  · constructor
    · rintro ⟨j, hj, hd⟩
      simp only [f64, dif_neg hf, reread_null, Option.some.injEq] at hj
      subst hj
      cases hd
    · rintro ⟨h, -⟩
      exact absurd h hf

/-- What stands for others is read as they are. -/
theorem reads_iso {c : Codec α} {e : β ≃ α} {x y : β} :
    (c.iso e).Reads x y ↔ c.Reads (e x) (e y) := by
  constructor
  · rintro ⟨j, hj, hd⟩
    obtain ⟨z, hz, hy⟩ := bind_eq_ok.mp hd
    refine ⟨j, hj, ?_⟩
    rw [hz, ← Except.ok.inj hy, Equiv.apply_symm_apply]
  · rintro ⟨j, hj, hd⟩
    exact ⟨j, hj, bind_eq_ok.mpr ⟨_, hd, by rw [Equiv.symm_apply_apply]; rfl⟩⟩

/-- It survives if they do. -/
@[simp] theorem survives_iso {c : Codec α} {e : β ≃ α} {x : β} :
    (c.iso e).Survives x ↔ c.Survives (e x) := reads_iso

/-- Reading back through a conversion. -/
theorem reads_refine {ε : Type} {c : Codec α} {wire : β → α} {unwire : α → Except ε β}
    {x y : β} : (c.refine wire unwire).Reads x y ↔ ∃ a, c.Reads (wire x) a ∧ unwire a = .ok y := by
  constructor
  · rintro ⟨j, hj, hd⟩
    obtain ⟨a, ha, hd⟩ := bind_eq_ok.mp hd
    refine ⟨a, ⟨j, hj, ha⟩, ?_⟩
    cases hof : unwire a with
    | ok b =>
      rw [hof] at hd
      rw [Except.ok.inj hd]
    | error e =>
      rw [hof] at hd
      cases hd
  · rintro ⟨a, ⟨j, hj, ha⟩, hof⟩
    exact ⟨j, hj, bind_eq_ok.mpr ⟨a, ha, by rw [hof]; rfl⟩⟩

/-- Only `null` is read back as `null`. -/
theorem reread_eq_null {j : Json} (h : j.reread = some .null) : j = .null := by
  cases j <;> simp_all

/-- A missing value survives. -/
@[simp] theorem survives_none {c : Codec α} : c.option.Survives none := ⟨_, rfl, rfl⟩

/-- A value that may be missing survives unless it is written as null. -/
@[simp] theorem survives_some {c : Codec α} {x : α} :
    c.option.Survives (some x) ↔ c.ser x ≠ .null ∧ c.Survives x := by
  constructor
  · rintro ⟨j, hj, hd⟩
    have hn : j ≠ .null := by
      rintro rfl
      cases hd
    refine ⟨fun h => hn ?_, j, hj, ?_⟩
    · simp only [option, h, reread_null, Option.some.injEq] at hj
      exact hj.symm
    · cases j with
      | null => exact absurd rfl hn
      | _ =>
        obtain ⟨y, hy, hx⟩ := bind_eq_ok.mp hd
        rw [hy, ← Option.some.inj (Except.ok.inj hx)]
  · rintro ⟨hn, j, hj, hd⟩
    refine ⟨j, hj, ?_⟩
    cases j with
    | null => exact absurd (reread_eq_null hj) hn
    | _ => exact bind_eq_ok.mpr ⟨x, hd, rfl⟩

/-- An optional value survives when it is absent or survives and is not taken for absent. -/
@[simp] theorem survives_option {c : Codec α} {x : Option α} :
    c.option.Survives x ↔ ∀ a ∈ x, c.ser a ≠ .null ∧ c.Survives a := by
  cases x <;> simp

/-- A sequence is read back item by item. -/
theorem reads_list {c : Codec α} {xs ys : List α} :
    c.list.Reads xs ys ↔ List.Forall₂ c.Reads xs ys := by
  have key : (∃ items, rereadItems (xs.map c.ser) = some items ∧ items.mapM c.de = .ok ys) ↔
      List.Forall₂ c.Reads xs ys := by
    induction xs generalizing ys with
    | nil => simp [pure, Except.pure, eq_comm]
    | cons x xs ih =>
      rw [List.forall₂_cons_left_iff]
      constructor
      · rintro ⟨items, hi, hd⟩
        simp only [List.map_cons, rereadItems_cons, Option.bind_eq_some_iff,
          Option.map_eq_some_iff] at hi
        obtain ⟨j, hj, rest, hrest, rfl⟩ := hi
        rw [List.mapM_cons, bind_eq_ok] at hd
        obtain ⟨y, hy, hd⟩ := hd
        obtain ⟨zs, hzs, hd⟩ := bind_eq_ok.mp hd
        exact ⟨y, zs, ⟨j, hj, hy⟩, ih.mp ⟨rest, hrest, hzs⟩, (Except.ok.inj hd).symm⟩
      · rintro ⟨y, zs, ⟨j, hj, hy⟩, hzs, rfl⟩
        obtain ⟨rest, hrest, hd⟩ := ih.mpr hzs
        refine ⟨j :: rest, by simp [hj, hrest], ?_⟩
        rw [List.mapM_cons]
        exact bind_eq_ok.mpr ⟨y, hy, bind_eq_ok.mpr ⟨zs, hd, rfl⟩⟩
  rw [← key]
  constructor
  · rintro ⟨j, hj, hd⟩
    simp only [list, reread_arr, Option.map_eq_some_iff] at hj
    obtain ⟨items, hi, rfl⟩ := hj
    exact ⟨items, hi, hd⟩
  · rintro ⟨items, hi, hd⟩
    exact ⟨.arr items, by simp [list, hi], hd⟩

/-- A list survives if its items do. -/
@[simp] theorem survives_list {c : Codec α} {xs : List α} :
    c.list.Survives xs ↔ ∀ x ∈ xs, c.Survives x :=
  reads_list.trans List.forall₂_same

/-- A pair survives if its parts do. -/
@[simp] theorem survives_pair {c : Codec α} {d : Codec β} {x : α × β} :
    (pair c d).Survives x ↔ c.Survives x.1 ∧ d.Survives x.2 := by
  constructor
  · intro h
    obtain ⟨j, hj, hd⟩ := h
    simp only [pair, reread_arr, rereadItems_cons, rereadItems_nil, Option.map_some,
      Option.map_eq_some_iff, Option.bind_eq_some_iff, Option.some.injEq] at hj
    obtain ⟨_, ⟨i, hi, _, ⟨k, hk, rfl⟩, rfl⟩, rfl⟩ := hj
    obtain ⟨a, ha, hd⟩ := bind_eq_ok.mp hd
    obtain ⟨b, hb, hd⟩ := bind_eq_ok.mp hd
    obtain rfl := Except.ok.inj hd
    exact ⟨⟨i, hi, ha⟩, k, hk, hb⟩
  · intro h
    obtain ⟨⟨i, hi, ha⟩, k, hk, hb⟩ := h
    exact ⟨.arr [i, k], by simp [pair, hi, hk], bind_eq_ok.mpr ⟨_, ha, bind_eq_ok.mpr ⟨_, hb, rfl⟩⟩⟩

/-- One written entry and one read entry agree. -/
private def ReadsAs (c : Codec α) (kv u : String × α) : Prop := kv.1 = u.1 ∧ c.Reads kv.2 u.2

/-- Entries are read if their values are, in their order. -/
private theorem reads_entries {c : Codec α} {kvs us : List (String × α)} :
    (∃ l, rereadEntries (kvs.map fun kv => (kv.1, c.ser kv.2)) = some l ∧
      (l.mapM fun kv => do
        let v ← c.de kv.2
        pure (kv.1, v)) = Except.ok us) ↔ List.Forall₂ (ReadsAs c) kvs us := by
  induction kvs generalizing us with
  | nil => simp [pure, Except.pure, eq_comm]
  | cons kv kvs ih =>
    rw [List.forall₂_cons_left_iff]
    constructor
    · rintro ⟨l, hl, hd⟩
      simp only [List.map_cons, rereadEntries_cons, Option.bind_eq_some_iff,
        Option.map_eq_some_iff] at hl
      obtain ⟨j, hj, rest, hrest, rfl⟩ := hl
      rw [List.mapM_cons, bind_eq_ok] at hd
      obtain ⟨u, hu, hd⟩ := hd
      obtain ⟨us', hus, hd⟩ := bind_eq_ok.mp hd
      obtain ⟨v, hv, hu⟩ := bind_eq_ok.mp hu
      obtain rfl := Except.ok.inj hu
      exact ⟨(kv.1, v), us', ⟨rfl, j, hj, hv⟩, ih.mp ⟨rest, hrest, hus⟩, (Except.ok.inj hd).symm⟩
    · rintro ⟨u, us', ⟨hk, j, hj, hv⟩, hrest, rfl⟩
      obtain ⟨rest, hr, hd⟩ := ih.mpr hrest
      refine ⟨(kv.1, j) :: rest, by simp [hj, hr], ?_⟩
      rw [List.mapM_cons]
      refine bind_eq_ok.mpr ⟨u, bind_eq_ok.mpr ⟨u.2, hv, ?_⟩,
        bind_eq_ok.mpr ⟨us', hd, rfl⟩⟩
      rw [hk]
      rfl

/-- A map is read as what its entries are read as. -/
private theorem reads_map {c : Codec α} {m m' : BTreeMap String α} :
    c.map.Reads m m' ↔
      ∃ us, List.Forall₂ (ReadsAs c) m.toList us ∧ Std.ExtTreeMap.ofList us compare = m' := by
  constructor
  · rintro ⟨j, hj, hd⟩
    simp only [map, reread_obj, Option.map_eq_some_iff] at hj
    obtain ⟨l, hl, rfl⟩ := hj
    obtain ⟨us, hus, hm⟩ := bind_eq_ok.mp hd
    exact ⟨us, reads_entries.mp ⟨l, hl, hus⟩, Except.ok.inj hm⟩
  · rintro ⟨us, hus, hm⟩
    obtain ⟨l, hl, hd⟩ := reads_entries.mpr hus
    refine ⟨.obj l, by simp [map, hl], bind_eq_ok.mpr ⟨us, hd, ?_⟩⟩
    rw [hm]
    rfl

/-- A map survives if its values do. -/
@[simp] theorem survives_map {c : Codec α} {m : BTreeMap String α} :
    c.map.Survives m ↔ ∀ v ∈ m.vals, c.Survives v := by
  rw [Survives, reads_map]
  constructor
  · rintro ⟨us, hus, hm⟩ v hv
    obtain ⟨k, hk⟩ := BTreeMap.mem_vals.mp hv
    have hkeys : us.map Prod.fst = m.keys := by
      rw [← Std.ExtTreeMap.map_fst_toList_eq_keys]
      have hf : List.Forall₂ (· = ·) (m.toList.map Prod.fst) (us.map Prod.fst) :=
        List.forall₂_map_left_iff.mpr (List.forall₂_map_right_iff.mpr (hus.imp fun _ _ h => h.1))
      rw [List.forall₂_eq_eq_eq] at hf
      exact hf.symm
    obtain ⟨u, hu, hkv, hr⟩ := exists_partner hus
      (Std.ExtTreeMap.mem_toList_iff_getElem?_eq_some.mpr hk)
    have hget := BTreeMap.get_ofList_of_mem (hkeys ▸ Std.ExtTreeMap.nodup_keys) hu
    rw [hm, ← hkv, hk, Option.some.injEq] at hget
    rwa [← hget] at hr
  · intro h
    refine ⟨m.toList, ?_, BTreeMap.ofList_toList m⟩
    rw [List.forall₂_same]
    intro kv hkv
    exact ⟨rfl, h kv.2 (List.mem_map_of_mem hkv)⟩

end Codec

namespace Fields

variable {name : String} {c : Codec α}

/-- A field is read back like its value, unless it is skipped and takes the value it was
skipped at. -/
theorem reads_field {missing : Option α} {skip : α → Bool}
    {h : ∀ x, skip x → missing = some x} {x y : α} :
    (field name c missing skip h).Reads x y ↔ if skip x then y = x else c.Reads x y := by
  by_cases hs : skip x
  · have hm := h x hs
    subst hm
    rw [if_pos hs]
    constructor
    · rintro ⟨l, hl, hd⟩
      simp only [field, hs, if_true, rereadEntries_nil, Option.some.injEq] at hl
      subst hl
      exact (Except.ok.inj hd).symm
    · rintro rfl
      exact ⟨[], by simp [field, hs], rfl⟩
  · rw [if_neg hs]
    constructor
    · rintro ⟨l, hl, hd⟩
      simp only [field, hs, Bool.false_eq_true, if_false, rereadEntries_cons, rereadEntries_nil,
        Option.map_some, Option.bind_eq_some_iff, Option.some.injEq] at hl
      obtain ⟨j, hj, rfl⟩ := hl
      exact ⟨j, hj, by simpa [field] using hd⟩
    · rintro ⟨j, hj, hd⟩
      exact ⟨[(name, j)], by simp [field, hs, hj], by simp [field, hd]⟩

/-- A required field is read as its value. -/
@[simp] theorem reads_required {x y : α} : (required name c).Reads x y ↔ c.Reads x y := by
  simp [required, reads_field]

/-- An optional field is read as its value or as missing. -/
@[simp] theorem reads_optional {x y : Option α} :
    (optional name c).Reads x y ↔ c.option.Reads x y := by
  simp [optional, reads_field]

/-- A field that was written is not defaulted. -/
@[simp] theorem reads_defaulted {d x y : α} : (defaulted name c d).Reads x y ↔ c.Reads x y := by
  simp [defaulted, reads_field]

/-- A field that is left out is read as missing. -/
@[simp] theorem reads_skipNone {x y : Option α} :
    (skipNone name c).Reads x y ↔ c.option.Reads x y := by
  cases x with
  | none => simp [skipNone, reads_field, Codec.survives_none.reads_iff]
  | some x => simp [skipNone, reads_field]

/-- A field that is left out is read as the empty list. -/
@[simp] theorem reads_skipEmpty {xs ys : List α} :
    (skipEmpty name c).Reads xs ys ↔ c.list.Reads xs ys := by
  cases xs with
  | nil => simp [skipEmpty, reads_field, Codec.reads_list]
  | cons x xs => simp [skipEmpty, reads_field]

/-- A field that is left out is read as the empty map. -/
@[simp] theorem reads_skipEmptyMap {m m' : BTreeMap String α} :
    (skipEmptyMap name c).Reads m m' ↔ c.map.Reads m m' := by
  by_cases hm : m.isEmpty
  · have hempty : c.map.Survives ∅ := by simp
    rw [Std.ExtTreeMap.isEmpty_iff.mp hm, hempty.reads_iff]
    simp [skipEmptyMap, reads_field]
  · simp [skipEmptyMap, reads_field, hm]

@[simp] theorem reads_unit : unit.Reads () () := ⟨[], rfl, rfl⟩

/-- What was written for the fields of a struct is under the struct's own names. -/
private theorem names_of_reread {names : List String} {f : Fields names α} {x : α}
    {l : List (String × Json)} (h : rereadEntries (f.ser x) = some l) :
    List.Sublist (l.map Prod.fst) names := by
  rw [map_fst_rereadEntries h]
  exact f.ser_names x

/-- The fields of a struct are read back independently of each other. -/
@[simp] theorem reads_both {names names' : List String} {f : Fields names α}
    {g : Fields names' β} {h : ∀ n ∈ names, n ∉ names'} {x y : α × β} :
    (both f g h).Reads x y ↔ f.Reads x.1 y.1 ∧ g.Reads x.2 y.2 := by
  have key : ∀ l₁ l₂, rereadEntries (f.ser x.1) = some l₁ → rereadEntries (g.ser x.2) = some l₂ →
      f.de (fun n => (l₁ ++ l₂).lookup n) = f.de (fun n => l₁.lookup n) ∧
      g.de (fun n => (l₁ ++ l₂).lookup n) = g.de (fun n => l₂.lookup n) := by
    intro l₁ l₂ h₁ h₂
    refine ⟨f.de_local _ _ fun n hn => ?_, g.de_local _ _ fun n hn => ?_⟩
    · exact lookup_append_left fun hm => h n hn ((names_of_reread h₂).subset hm)
    · exact lookup_append_right fun hm => h n ((names_of_reread h₁).subset hm) hn
  constructor
  · rintro ⟨l, hl, hd⟩
    simp only [both, rereadEntries_append, Option.bind_eq_some_iff, Option.map_eq_some_iff] at hl
    obtain ⟨l₁, h₁, l₂, h₂, rfl⟩ := hl
    obtain ⟨a, ha, hd⟩ := bind_eq_ok.mp hd
    obtain ⟨b, hb, hd⟩ := bind_eq_ok.mp hd
    obtain rfl := Except.ok.inj hd
    obtain ⟨hf, hg⟩ := key l₁ l₂ h₁ h₂
    exact ⟨⟨l₁, h₁, hf ▸ ha⟩, l₂, h₂, hg ▸ hb⟩
  · rintro ⟨⟨l₁, h₁, ha⟩, l₂, h₂, hb⟩
    obtain ⟨hf, hg⟩ := key l₁ l₂ h₁ h₂
    refine ⟨l₁ ++ l₂, by simp [both, rereadEntries_append, h₁, h₂], ?_⟩
    exact bind_eq_ok.mpr ⟨y.1, hf ▸ ha, bind_eq_ok.mpr ⟨y.2, hg ▸ hb, rfl⟩⟩

end Fields

/-- A struct is read back field by field. -/
theorem Codec.reads_record {names : List String} {f : Fields names α} {x y : α} :
    (Codec.record f).Reads x y ↔ f.Reads x y := by
  have key : ∀ l, rereadEntries (f.ser x) = some l →
      (Codec.record f).de (.obj l) = f.de fun n => l.lookup n := by
    intro l hl
    have hs := Fields.names_of_reread hl
    simp only [Codec.record]
    rw [if_pos ((hs.nodup f.names_nodup).sublist List.filter_sublist)]
  constructor
  · rintro ⟨j, hj, hd⟩
    simp only [Codec.record, reread_obj, Option.map_eq_some_iff] at hj
    obtain ⟨l, hl, rfl⟩ := hj
    exact ⟨l, hl, key l hl ▸ hd⟩
  · rintro ⟨l, hl, hd⟩
    exact ⟨.obj l, by simp [Codec.record, hl], (key l hl).trans hd⟩

/-- A struct survives when reading back its fields gives them. -/
@[simp] theorem Codec.survives_record {names : List String} {f : Fields names α} {x : α} :
    (Codec.record f).Survives x ↔ f.Reads x x := Codec.reads_record

omit [SerdeJson] in
/-- A struct is never written as `null`. -/
@[simp] theorem Codec.record_ne_null {names : List String} {f : Fields names α} {x : α} :
    (Codec.record f).ser x ≠ .null := by
  simp [Codec.record]

/-- Reading back a list and then converting its items. -/
theorem Codec.reads_list_refine {ε : Type} {c : Codec α} {wire : β → α} {unwire : α → Except ε β}
    {xs ys : List β} :
    (∃ ws, c.list.Reads (xs.map wire) ws ∧ List.Forall₂ (fun w y => unwire w = .ok y) ws ys) ↔
      (c.refine wire unwire).list.Reads xs ys := by
  simp only [Codec.reads_list, List.forall₂_map_left_iff]
  induction xs generalizing ys with
  | nil => simp
  | cons x xs ih =>
    rw [List.forall₂_cons_left_iff]
    constructor
    · intro h
      obtain ⟨_, hws, hall⟩ := h
      obtain ⟨w, ws, hw, hrest, rfl⟩ := List.forall₂_cons_left_iff.mp hws
      obtain ⟨y, ys, hy, hys, rfl⟩ := List.forall₂_cons_left_iff.mp hall
      exact ⟨y, ys, Codec.reads_refine.mpr ⟨w, hw, hy⟩, ih.mp ⟨ws, hrest, hys⟩, rfl⟩
    · intro h
      obtain ⟨y, ys, hy, hys, rfl⟩ := h
      obtain ⟨w, hw, hwy⟩ := Codec.reads_refine.mp hy
      obtain ⟨ws, hws, hrest⟩ := ih.mpr hys
      exact ⟨w :: ws, .cons hw hws, .cons hwy hrest⟩

section Keyed

variable {κ ν : Type} [Ord κ] [Std.TransOrd κ] {c : Codec ν} {key : ν → κ}

/-- Values are read one by one and put under their keys. -/
theorem Codec.reads_keyed {m m' : BTreeMap κ ν} :
    (c.keyed key).Reads m m' ↔
      ∃ vs, List.Forall₂ c.Reads m.vals vs ∧ BTreeMap.insertAll key ∅ vs = m' := by
  simp only [← Codec.reads_list]
  constructor
  · intro h
    obtain ⟨j, hj, hd⟩ := h
    obtain ⟨vs, hvs, hm⟩ := bind_eq_ok.mp hd
    exact ⟨vs, ⟨j, hj, hvs⟩, Except.ok.inj hm⟩
  · intro h
    obtain ⟨vs, ⟨j, hj, hvs⟩, hm⟩ := h
    exact ⟨j, hj, bind_eq_ok.mpr ⟨vs, hvs, by rw [hm]; rfl⟩⟩

/-- Provided reading a value back keeps its key, a map written as a list survives when
it is keyed by its values and they survive. -/
theorem Codec.survives_keyed [Std.LawfulEqOrd κ] [DecidableEq κ] {m : BTreeMap κ ν}
    (hkey : ∀ v w, c.Reads v w → key w = key v) :
    (c.keyed key).Survives m ↔ m.KeyedBy key ∧ ∀ v ∈ m.vals, c.Survives v := by
  rw [Codec.Survives, Codec.reads_keyed]
  constructor
  · intro h
    obtain ⟨vs, hvs, hm⟩ := h
    have hk : m.KeyedBy key := BTreeMap.keyedBy_of_insertAll_eq hm
    have hkeys : vs.map key = m.vals.map key := by
      have hf : List.Forall₂ (· = ·) (m.vals.map key) (vs.map key) :=
        List.forall₂_map_left_iff.mpr
          (List.forall₂_map_right_iff.mpr (hvs.imp fun v w h => (hkey v w h).symm))
      rw [List.forall₂_eq_eq_eq] at hf
      exact hf.symm
    have hnodup : (vs.map key).Nodup := by
      rw [hkeys, hk.map_key_vals]
      exact Std.ExtTreeMap.nodup_keys
    refine ⟨hk, fun v hv => ?_⟩
    obtain ⟨w, hw, hr⟩ := exists_partner hvs hv
    have hget := BTreeMap.get_insertAll_of_mem ∅ vs hnodup hw
    obtain ⟨k, hkv⟩ := BTreeMap.mem_vals.mp hv
    rw [hm, hkey v w hr, hk k v hkv, hkv, Option.some.injEq] at hget
    rwa [← hget] at hr
  · intro h
    exact ⟨m.vals, List.forall₂_same.mpr h.2, h.1.insertAll_vals⟩

end Keyed

/-- In a field of a surviving struct, survival is what is asked of the value. -/
@[simp] theorem Codec.reads_self {c : Codec α} {x : α} : c.Reads x x ↔ c.Survives x := Iff.rfl

end Reads

end AtomrOntology
