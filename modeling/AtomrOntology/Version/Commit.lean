import AtomrOntology.Core.JsonText
import AtomrOntology.Graph.Ontology

/-!
# Content-addressed commits

The id of a commit is a digest of its parent, its message and the JSON text of its
snapshot. Second parent, author, timestamp and activity are recorded but not hashed.
A snapshot that has no JSON form is hashed as one fixed sentinel.
-/

namespace AtomrOntology

/-- A single revision. -/
structure Commit where
  id : CommitId
  parent : Option CommitId
  secondParent : Option CommitId
  message : String
  author : String
  timestamp : DateTime
  snapshot : Ontology
  activity : Option ProvenanceId

/-- The hashing context of commit ids. -/
def commitContext : String := "atomr-ontology-version/CommitId/v1"

/-- What stands for the parent in the hash input: its bytes, or zeros. -/
def parentBytes : Option CommitId → Bytes32
  | some p => p.bytes
  | none => Vector.replicate 32 0

section

variable [SerdeJson]

/-- What stands for the snapshot in the hash input. -/
def snapshotText (snapshot : Ontology) : String :=
  match snapshot.ser with
  | some j => j.text
  | none => "<unserializable-snapshot>"

/-- The bytes fed to the hasher. -/
def computeIdInput (parent : Option CommitId) (message : String) (snapshot : Ontology) :
    List UInt8 :=
  (parentBytes parent).toList ++ utf8 message ++ [0] ++ utf8 (snapshotText snapshot)

/-- The id of a parent, message and snapshot. -/
def computeId [Blake3] (parent : Option CommitId) (message : String) (snapshot : Ontology) :
    CommitId :=
  ⟨Blake3.deriveKey commitContext (computeIdInput parent message snapshot)⟩

/-- Build a commit under its content-addressed id. -/
def Commit.new [Blake3] (parent secondParent : Option CommitId) (message author : String)
    (timestamp : DateTime) (snapshot : Ontology) (activity : Option ProvenanceId) : Commit :=
  { id := computeId parent message snapshot, parent, secondParent, message, author, timestamp,
    snapshot, activity }

/-- Two snapshots that the hash input does not tell apart: the same one, or two that both
hold nodes, edges or axioms. -/
def SameText (a b : Ontology) : Prop := a = b ∨ (¬a.isBare ∧ ¬b.isBare)

private theorem text_ne_sentinel {o : Ontology} {j : Json} (h : o.ser = some j) :
    j.text ≠ "<unserializable-snapshot>" := by
  obtain ⟨-, rfl⟩ := Ontology.ser_eq_some h
  intro he
  have hc := congrArg String.toList he
  simp [Json.text, Json.chars] at hc

/-- What the hash input keeps of a snapshot. -/
theorem snapshotText_eq_iff {a b : Ontology} : snapshotText a = snapshotText b ↔ SameText a b := by
  unfold snapshotText SameText
  cases ha : a.ser with
  | none =>
    have hna := Ontology.ser_eq_none.mp ha
    cases hb : b.ser with
    | none =>
      have hnb := Ontology.ser_eq_none.mp hb
      simp [hna, hnb]
    | some j =>
      have hbb := (Ontology.ser_eq_some hb).1
      have hne : a ≠ b := by
        rintro rfl
        exact hna hbb
      simp [hne, hbb, (text_ne_sentinel hb).symm]
  | some i =>
    have hba := (Ontology.ser_eq_some ha).1
    cases hb : b.ser with
    | none =>
      have hnb := Ontology.ser_eq_none.mp hb
      have hne : a ≠ b := by
        rintro rfl
        exact hnb hba
      simp [hne, hba, text_ne_sentinel ha]
    | some j =>
      have hiff : i.text = j.text ↔ a = b := by
        constructor
        · intro h
          obtain rfl := Json.text_injective h
          exact Ontology.ser_injective ha hb
        · rintro rfl
          rw [ha, Option.some.injEq] at hb
          rw [hb]
      simp [hiff, hba]

private theorem nul_not_mem_snapshotText (o : Ontology) : '\x00' ∉ (snapshotText o).toList := by
  cases h : o.ser with
  | none =>
    simp only [snapshotText, h]
    decide
  | some j =>
    simp only [snapshotText, h, Json.text, String.toList_ofList]
    exact Json.nul_not_mem_chars j

/-- The hash input determines the parent bytes, the message and the snapshot's text: the
last NUL separates the message from a text that has none. -/
theorem computeIdInput_eq_iff {p q : Option CommitId} {m n : String} {a b : Ontology} :
    computeIdInput p m a = computeIdInput q n b ↔
      parentBytes p = parentBytes q ∧ m = n ∧ SameText a b := by
  rw [← snapshotText_eq_iff]
  constructor
  · intro h
    have hz : utf8 "\x00" = [0] := by decide
    have hsplit : ∀ (r : Option CommitId) (k : String) (c : Ontology), computeIdInput r k c =
        (parentBytes r).toList ++ utf8 (k ++ "\x00" ++ snapshotText c) := by
      intro r k c
      rw [computeIdInput, utf8_append, utf8_append, hz, List.append_assoc, List.append_assoc,
        List.append_assoc]
    rw [hsplit, hsplit] at h
    obtain ⟨hp, ht⟩ := List.append_inj h (by simp)
    have hc := congrArg String.toList (utf8_injective ht)
    simp only [String.toList_append, List.append_assoc] at hc
    obtain ⟨hm, hs⟩ := split_last (nul_not_mem_snapshotText a) (nul_not_mem_snapshotText b) hc
    exact ⟨Vector.toList_inj.mp hp, String.toList_inj.mp hm, String.toList_inj.mp hs⟩
  · rintro ⟨hp, rfl, ht⟩
    rw [computeIdInput, computeIdInput, hp, ht]

end

end AtomrOntology
