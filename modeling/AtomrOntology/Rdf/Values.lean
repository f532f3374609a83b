import AtomrOntology.Rdf.Base64

/-!
# Values and their literals

The literal of a property value determines the value: the datatype tells which kind it is, and each
lexical form is read in one way. Only instants are the exception, since they are written in whole
seconds.
-/

namespace AtomrOntology

/-- The minute and the second that are printed for an instant, where a leap second is the second
after the one that it lengthens. -/
def DateTime.shown (t : DateTime) : Int × Int := (t.secs / 60, t.secs % 60 + t.nanos / 10 ^ 9)

/-- What is documented of the texts: instants are printed up to whole seconds, and the text of a
finite float is read back as that float. -/
structure RdfText.Documented [RdfText] : Prop where
  seconds : ∀ t u : DateTime, RdfText.rfc3339 t = RdfText.rfc3339 u ↔ t.shown = u.shown
  floats : ∀ f g : F64, f.isFinite → g.isFinite → RdfText.floatText f = RdfText.floatText g → f = g

namespace PropertyValue

/-- A value other than null, finite if it is a float and validated if it is an IRI. -/
def Projected : PropertyValue → Prop
  | .float f => f.isFinite
  | .iri i => ∃ s, Iri.new s = .ok i
  | .null => False
  | _ => True

/-- Two instants that are printed alike. -/
def SameSecond (v w : PropertyValue) : Prop :=
  ∃ t u, v = .dateTime t ∧ w = .dateTime u ∧ t.shown = u.shown

/-- The datatype of the literals of a kind of values; IRIs are no literals. -/
def datatype : PropertyValue → Option Iri
  | .string _ => some xsdString
  | .integer _ => some xsdInteger
  | .float _ => some xsdDouble
  | .bool _ => some xsdBoolean
  | .dateTime _ => some xsdDateTime
  | .iri _ => none
  | .bytes _ => some xsdBase64Binary
  | .json _ => some rdfJson
  | .null => none

variable [SerdeJson] [RdfText]

/-- Values with one object have one datatype. -/
theorem datatype_eq {v w : PropertyValue} (h : v.toObject = w.toObject) :
    v.datatype = w.datatype := by
  have hread : ∀ v : PropertyValue, v.datatype = v.toObject.bind fun o =>
      o.casesOn (fun _ => none) (fun _ => none) fun _ datatype _ => some datatype := by
    intro v
    cases v <;> rfl
  rw [hread, hread, h]

omit [SerdeJson] [RdfText] in
/-- The lexical form of a literal. -/
theorem lexical_eq {s t : String} {datatype : Iri}
    (h : some (Object.literal s datatype none) = some (.literal t datatype none)) : s = t := by
  cases h
  rfl

/-- Two values have one object exactly if they are equal, or instants that are printed alike. -/
theorem toObject_eq_iff (htext : RdfText.Documented) {v w : PropertyValue} (hv : v.Projected)
    (hw : w.Projected) : v.toObject = w.toObject ↔ v = w ∨ SameSecond v w := by
  constructor
  · intro h
    have hkind := datatype_eq h
    -- values of different kinds have different datatypes, and only IRIs have none
    cases v <;> cases w <;> first
      | exact hv.elim
      | exact hw.elim
      | (simp [datatype, xsdString, xsdInteger, xsdDouble, xsdBoolean, xsdDateTime,
          xsdBase64Binary, rdfJson] at hkind; done)
      | skip
    case string.string s t => exact Or.inl (congrArg string (lexical_eq h))
    case integer.integer i j =>
      exact Or.inl (congrArg integer (Int64.toInt_inj.mp (Int.repr_injective (lexical_eq h))))
    case float.float f g => exact Or.inl (congrArg float (htext.floats f g hv hw (lexical_eq h)))
    case bool.bool a b =>
      have htexts : ∀ a b : Bool, toString a = toString b → a = b := by decide
      exact Or.inl (congrArg bool (htexts a b (lexical_eq h)))
    case dateTime.dateTime t u =>
      exact Or.inr ⟨t, u, rfl, rfl, (htext.seconds t u).mp (lexical_eq h)⟩
    case iri.iri i j =>
      cases h
      exact Or.inl rfl
    case bytes.bytes a b =>
      exact Or.inl (congrArg bytes
        (Base64.base64Chars_injective (String.ofList_injective (lexical_eq h))))
    case json.json a b =>
      exact Or.inl (congrArg json (Subtype.ext (Json.text_injective (lexical_eq h))))
  · intro h
    rcases h with rfl | ⟨t, u, rfl, rfl, hshown⟩
    · rfl
    · rw [toObject, toObject, (htext.seconds t u).mpr hshown]

/-- The projection of two values to objects is lossless exactly if they are not different instants
that are printed alike. -/
theorem lossless_iff (htext : RdfText.Documented) {v w : PropertyValue} (hv : v.Projected)
    (hw : w.Projected) :
    (v.toObject = w.toObject → v = w) ↔ ¬(v ≠ w ∧ SameSecond v w) := by
  rw [toObject_eq_iff htext hv hw]
  tauto

end PropertyValue

/-- Texts that are exact for the epoch, and otherwise tell apart whatever is printed apart. -/
private abbrev epochText : RdfText where
  rfc3339 t := if t.shown = (0, 0) then "1970-01-01T00:00:00Z"
    else Nat.repr (Nat.pair (Equiv.intEquivNat t.shown.1) (Equiv.intEquivNat t.shown.2))
  floatText f := Nat.repr f.bits.toNat

private theorem epochText_documented : @RdfText.Documented epochText := by
  have hrepr : ∀ n : Nat, "1970-01-01T00:00:00Z" ≠ Nat.repr n := by
    intro n h
    have hmem : '-' ∈ (Nat.repr n).toList := by simp [← h]
    rw [Nat.toList_repr] at hmem
    exact absurd (Nat.isDigit_of_mem_toDigits (by decide) (by decide) hmem) (by decide)
  refine @RdfText.Documented.mk epochText (fun t u => ?_) fun f g _ _ h => ?_
  · constructor
    · intro h
      simp only [RdfText.rfc3339] at h
      split_ifs at h with ht hu hu
      · rw [ht, hu]
      · exact absurd h (hrepr _)
      · exact absurd h.symm (hrepr _)
      · obtain ⟨hminute, hsecond⟩ := Nat.pair_eq_pair.mp (Nat.repr_injective h)
        exact Prod.ext (Equiv.intEquivNat.injective hminute) (Equiv.intEquivNat.injective hsecond)
    · intro h
      simp only [RdfText.rfc3339, h]
  · exact congrArg F64.mk (BitVec.eq_of_toNat_eq (Nat.repr_injective h))

/-- Two instants half a second apart have one literal. -/
theorem half_second_is_lost :
    @PropertyValue.toObject .plain epochText (.dateTime ⟨0, 0⟩) =
        @PropertyValue.toObject .plain epochText (.dateTime ⟨0, 500000000⟩) ∧
      PropertyValue.dateTime ⟨0, 0⟩ ≠ .dateTime ⟨0, 500000000⟩ := by
  refine ⟨rfl, fun h => ?_⟩
  cases h

/-- An instant and the text that is printed for it have different objects. -/
theorem lossless_epoch :
    @PropertyValue.toObject .plain epochText (.dateTime .epoch) ≠
      @PropertyValue.toObject .plain epochText (.string "1970-01-01T00:00:00Z") := by
  have hlossless := @PropertyValue.lossless_iff .plain epochText epochText_documented
    (.dateTime .epoch) (.string "1970-01-01T00:00:00Z") trivial trivial
  intro h
  cases hlossless.mpr (fun ⟨_, _, _, _, hu, _⟩ => nomatch hu) h

end AtomrOntology
