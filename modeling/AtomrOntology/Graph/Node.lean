import AtomrOntology.Core.Text
import AtomrOntology.Graph.Id

/-!
# Nodes and edges

The labelled property graph: IRIs, typed property values, nodes and edges, with the
derived JSON form of each.
-/

namespace AtomrOntology

/-- An IRI. Only `Iri.new` validates: deserialization and `from_unchecked` take any
string. -/
@[ext] structure Iri where
  value : String
deriving DecidableEq, Repr

/-- Why a string is not an IRI. -/
inductive IriError where
  | empty
  | whitespace (s : String)
deriving DecidableEq, Repr

/-- Validate a string as an IRI. -/
def Iri.new (s : String) : Except IriError Iri :=
  if s.isEmpty then .error .empty
  else if s.toList.any isWhitespace then .error (.whitespace s)
  else .ok ⟨s⟩

/-- A UTC instant: seconds since the epoch and nanoseconds. -/
structure DateTime where
  secs : Int
  nanos : Nat
deriving DecidableEq, Repr

/-- How `chrono` writes an instant for serde, and reads it. -/
class Chrono where
  print : DateTime → String
  parse : String → Option DateTime
  parse_print : ∀ t, parse (print t) = some t

/-- The epoch. -/
def DateTime.epoch : DateTime := ⟨0, 0⟩

/-- The position of an instant in an enumeration of all of them. -/
def DateTime.index (t : DateTime) : Nat := Nat.pair (Equiv.intEquivNat t.secs) t.nanos

/-- The instant at a position. -/
def DateTime.ofIndex (n : Nat) : DateTime := ⟨Equiv.intEquivNat.symm n.unpair.1, n.unpair.2⟩

/-- A time is told by its index. -/
theorem DateTime.ofIndex_index (t : DateTime) : .ofIndex t.index = t := by
  simp [DateTime.ofIndex, DateTime.index]

private theorem epoch_text_ne (n : Nat) :
    String.ofList (List.replicate n '0') ≠ "1970-01-01T00:00:00Z" := by
  intro h
  have hmem : '1' ∈ List.replicate n '0' := by
    rw [← String.toList_inj, String.toList_ofList] at h
    simp [h]
  exact absurd (List.eq_of_mem_replicate hmem) (by decide)

/-- A timestamp code that loses nothing, for running the model. -/
abbrev Chrono.plain : Chrono where
  print t := if t = .epoch then "1970-01-01T00:00:00Z" else .ofList (.replicate t.index '0')
  parse s := if s = "1970-01-01T00:00:00Z" then some .epoch else some (.ofIndex s.length)
  parse_print t := by
    by_cases h : t = .epoch
    · simp [h]
    · rw [if_neg h, if_neg (epoch_text_ne _), String.length_ofList, List.length_replicate,
        DateTime.ofIndex_index]

/-- What a `serde_json::Value` can hold. -/
abbrev JsonValue := {j : Json // j.DistinctKeys}

/-- A typed property value. -/
inductive PropertyValue where
  | string (s : String)
  | integer (i : Int64)
  | float (f : F64)
  | bool (b : Bool)
  | dateTime (t : DateTime)
  | iri (i : Iri)
  | bytes (b : List UInt8)
  | json (v : JsonValue)
  | null

/-- The derived `PartialEq`: floats compare as floats. -/
def PropertyValue.eq : PropertyValue → PropertyValue → Bool
  | .string s, .string t => s == t
  | .integer i, .integer j => i == j
  | .float f, .float g => f.eq g
  | .bool a, .bool b => a == b
  | .dateTime s, .dateTime t => s == t
  | .iri i, .iri j => i == j
  | .bytes a, .bytes b => a == b
  | .json v, .json w => v.val.eq w.val
  | .null, .null => true
  | _, _ => false

/-- A labelled node. -/
structure Node where
  id : NodeId
  iri : Option Iri
  types : List String
  properties : BTreeMap String PropertyValue

/-- A directed, labelled edge. -/
structure Edge where
  id : EdgeId
  label : String
  source : NodeId
  target : NodeId
  properties : BTreeMap String PropertyValue

namespace Node

variable [Blake3]

/-- A node whose id is derived from its IRI. -/
def fromIri (iri : Iri) (typeName : String) : Node :=
  { id := Id.contentAddress (utf8 iri.value), iri := some iri, types := [typeName],
    properties := ∅ }

/-- Attach an additional label. -/
def withLabel (n : Node) (typeName : String) : Node := { n with types := n.types ++ [typeName] }

/-- Set or replace a property. -/
def withProperty (n : Node) (name : String) (value : PropertyValue) : Node :=
  { n with properties := n.properties.insert name value }

/-- True when the node carries the given label. -/
def hasType (n : Node) (typeName : String) : Bool := n.types.any (· == typeName)

end Node

/-- What the id of an edge is derived from: its endpoints and label. -/
def Edge.input (source : NodeId) (label : String) (target : NodeId) : List UInt8 :=
  source.bytes.toList ++ 0 :: utf8 label ++ 0 :: target.bytes.toList

/-- An edge whose id is derived from its endpoints and label. -/
def Edge.between [Blake3] (source : NodeId) (label : String) (target : NodeId) : Edge :=
  { id := Id.contentAddress (Edge.input source label target), label, source, target,
    properties := ∅ }

namespace Codec

/-- An IRI is a transparent string. -/
def iri : Codec Iri := strings Iri.value (fun s => some ⟨s⟩)

def dateTime [Chrono] : Codec DateTime := strings Chrono.print Chrono.parse

variable [SerdeJson]

@[simp] theorem survives_iri (i : Iri) : iri.Survives i := survives_strings.mpr rfl

/-- Every time is read back. -/
@[simp] theorem survives_dateTime [Chrono] (t : DateTime) : dateTime.Survives t :=
  survives_strings.mpr (Chrono.parse_print t)

omit [SerdeJson] in
@[simp] theorem iri_ne_null (i : Iri) : iri.ser i ≠ .null := by
  simp [iri]

omit [SerdeJson] in
@[simp] theorem dateTime_ne_null [Chrono] (t : DateTime) : dateTime.ser t ≠ .null := by
  simp [dateTime]

end Codec

section Json

variable [SerdeJson] [Chrono]

/-- `PropertyValue` is adjacently tagged: `type` and `value`. -/
def PropertyValue.fields : Fields ["type", "value"] PropertyValue where
  ser
    | .string s => [("type", .str "string"), ("value", Codec.string.ser s)]
    | .integer i => [("type", .str "integer"), ("value", Codec.i64.ser i)]
    | .float f => [("type", .str "float"), ("value", Codec.f64.ser f)]
    | .bool b => [("type", .str "bool"), ("value", Codec.bool.ser b)]
    | .dateTime t => [("type", .str "date_time"), ("value", Codec.dateTime.ser t)]
    | .iri i => [("type", .str "iri"), ("value", Codec.iri.ser i)]
    | .bytes b => [("type", .str "bytes"), ("value", Codec.bytes.ser b)]
    | .json v => [("type", .str "json"), ("value", Codec.value.ser v)]
    | .null => [("type", .str "null")]
  de get :=
    match get "type", get "value" with
    | some (.str "string"), some j => .string <$> Codec.string.de j
    | some (.str "integer"), some j => .integer <$> Codec.i64.de j
    | some (.str "float"), some j => .float <$> Codec.f64.de j
    | some (.str "bool"), some j => .bool <$> Codec.bool.de j
    | some (.str "date_time"), some j => .dateTime <$> Codec.dateTime.de j
    | some (.str "iri"), some j => .iri <$> Codec.iri.de j
    | some (.str "bytes"), some j => .bytes <$> Codec.bytes.de j
    | some (.str "json"), some j => .json <$> Codec.value.de j
    | some (.str "null"), none => .ok .null
    | some (.str "null"), some .null => .ok .null
    | some (.str _), some _ => .error .unknownVariant
    | some (.str _), none => .error (.missingField "value")
    | some _, _ => .error .invalidType
    | none, _ => .error (.missingField "type")
  names_nodup := by decide
  ser_names v := by cases v <;> simp
  de_local get get' h := by rw [h "type" (by simp), h "value" (by simp)]

def PropertyValue.codec : Codec PropertyValue := .record PropertyValue.fields

private theorem PropertyValue.survives_variant {α : Type} {c : Codec α} {m : α → PropertyValue}
    {tag : String} {x : α} (hm : Function.Injective m)
    (hser : PropertyValue.fields.ser (m x) = [("type", .str tag), ("value", c.ser x)])
    (hde : ∀ get j, get "type" = some (.str tag) → get "value" = some j →
      PropertyValue.fields.de get = m <$> c.de j) :
    PropertyValue.fields.Reads (m x) (m x) ↔ c.Survives x := by
  constructor
  · rintro ⟨l, hl, hd⟩
    rw [hser] at hl
    simp only [Json.rereadEntries_cons, Json.reread_str, Json.rereadEntries_nil, Option.map_some,
      Option.bind_some, Option.map_eq_some_iff, Option.bind_eq_some_iff, Option.some.injEq] at hl
    obtain ⟨_, ⟨j, hj, rfl⟩, rfl⟩ := hl
    rw [hde _ j rfl rfl, map_eq_pure_bind] at hd
    obtain ⟨y, hy, hd⟩ := bind_eq_ok.mp hd
    exact ⟨j, hj, by rw [hy, hm (Except.ok.inj hd)]⟩
  · rintro ⟨j, hj, hd⟩
    refine ⟨[("type", .str tag), ("value", j)], by simp [hser, hj], ?_⟩
    rw [hde _ j rfl rfl, hd]
    rfl

/-- A property value can be read back: its floats are finite and the reader restores
them. -/
def PropertyValue.Readable : PropertyValue → Prop
  | .float f => ∃ h : f.isFinite, SerdeJson.floatReread ⟨f, h⟩ = some ⟨f, h⟩
  | .json v => v.val.reread = some v.val
  | _ => True

/-- Only floats are lost by the JSON form of a property value. -/
@[simp] theorem PropertyValue.survives_codec {v : PropertyValue} :
    PropertyValue.codec.Survives v ↔ v.Readable := by
  rw [PropertyValue.codec, Codec.survives_record]
  cases v with
  | null => exact iff_of_true ⟨_, rfl, rfl⟩ trivial
  | float f =>
    rw [PropertyValue.survives_variant (m := .float) (c := .f64)
      (fun _ _ h => PropertyValue.float.inj h) rfl fun get j ht hv => by
        simp only [PropertyValue.fields, ht, hv], Codec.survives_f64]
    rfl
  | json w =>
    rw [PropertyValue.survives_variant (m := .json) (c := .value)
      (fun _ _ h => PropertyValue.json.inj h) rfl fun get j ht hv => by
        simp only [PropertyValue.fields, ht, hv], Codec.survives_value]
    rfl
  | string s =>
    refine iff_of_true ((PropertyValue.survives_variant (c := .string)
      (fun _ _ h => PropertyValue.string.inj h) rfl fun get j ht hv => ?_).mpr
        (Codec.survives_string s)) trivial
    simp only [PropertyValue.fields, ht, hv]
  | integer i =>
    refine iff_of_true ((PropertyValue.survives_variant (c := .i64)
      (fun _ _ h => PropertyValue.integer.inj h) rfl fun get j ht hv => ?_).mpr
        (Codec.survives_i64 i)) trivial
    simp only [PropertyValue.fields, ht, hv]
  | bool b =>
    refine iff_of_true ((PropertyValue.survives_variant (c := .bool)
      (fun _ _ h => PropertyValue.bool.inj h) rfl fun get j ht hv => ?_).mpr
        (Codec.survives_bool b)) trivial
    simp only [PropertyValue.fields, ht, hv]
  | dateTime t =>
    refine iff_of_true ((PropertyValue.survives_variant (c := .dateTime)
      (fun _ _ h => PropertyValue.dateTime.inj h) rfl fun get j ht hv => ?_).mpr
        (Codec.survives_dateTime t)) trivial
    simp only [PropertyValue.fields, ht, hv]
  | iri i =>
    refine iff_of_true ((PropertyValue.survives_variant (c := .iri)
      (fun _ _ h => PropertyValue.iri.inj h) rfl fun get j ht hv => ?_).mpr
        (Codec.survives_iri i)) trivial
    simp only [PropertyValue.fields, ht, hv]
  | bytes b =>
    refine iff_of_true ((PropertyValue.survives_variant (c := .bytes)
      (fun _ _ h => PropertyValue.bytes.inj h) rfl fun get j ht hv => ?_).mpr
        (Codec.survives_bytes b)) trivial
    simp only [PropertyValue.fields, ht, hv]

/-- The fields of a node in declaration order. -/
def Node.parts : Node ≃ NodeId × Option Iri × List String × BTreeMap String PropertyValue where
  toFun n := (n.id, n.iri, n.types, n.properties)
  invFun x := ⟨x.1, x.2.1, x.2.2.1, x.2.2.2⟩

/-- The fields of a node, with its id written by the given codec. -/
def Node.fields {ι : Type} (id : Codec ι) :=
  Fields.both (.required "id" id) <| .both (.optional "iri" .iri) <|
    .both (.required "types" (.list .string)) (.required "properties" (.map PropertyValue.codec))

def Node.codec : Codec Node := (Codec.record (Node.fields .id)).iso Node.parts

/-- The fields of an edge in declaration order. -/
def Edge.parts :
    Edge ≃ EdgeId × String × NodeId × NodeId × BTreeMap String PropertyValue where
  toFun e := (e.id, e.label, e.source, e.target, e.properties)
  invFun x := ⟨x.1, x.2.1, x.2.2.1, x.2.2.2.1, x.2.2.2.2⟩

/-- The fields of an edge, with its ids written by the given codecs. -/
def Edge.fields {ι ν : Type} (id : Codec ι) (node : Codec ν) :=
  Fields.both (.required "id" id) <| .both (.required "label" .string) <|
    .both (.required "source" node) <| .both (.required "target" node)
      (.required "properties" (.map PropertyValue.codec))

def Edge.codec : Codec Edge := (Codec.record (Edge.fields .id .id)).iso Edge.parts

/-- A node is read back when its property values are. -/
@[simp] theorem Node.survives_codec {n : Node} :
    Node.codec.Survives n ↔ ∀ v ∈ n.properties.vals, v.Readable := by
  cases h : n.iri <;> simp [Node.codec, Node.fields, Node.parts, h]

/-- An edge is read back when its property values are. -/
@[simp] theorem Edge.survives_codec {e : Edge} :
    Edge.codec.Survives e ↔ ∀ v ∈ e.properties.vals, v.Readable := by
  simp [Edge.codec, Edge.fields, Edge.parts]

end Json

end AtomrOntology
