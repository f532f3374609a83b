import AtomrOntology.Core.PrettyText
import AtomrOntology.Persist.Durable

/-!
# Saves that are cut short

The file checkpointer rewrites its file in place: the file is emptied when it is opened, and then
the bytes of the document are written. Between the two the snapshot saved before is gone and the new
one is not there. What such a save leaves is loaded exactly when every byte was written.
-/

namespace AtomrOntology

open Json Brackets

/-- How reading a file fails. -/
inductive ReadError where
  | notFound
  | other (message : String)
deriving DecidableEq, Repr

/-- `tokio::fs::read`, of a file that can be read if there is one. -/
def fsRead : Option (List UInt8) → Except ReadError (List UInt8)
  | some bytes => .ok bytes
  | none => .error .notFound

/-- How the calls of one save to the file system end. -/
inductive WriteEnd where
  /-- The directory is not created, or the file not opened. -/
  | refused (message : String)
  /-- The process stops before the file is opened. -/
  | unopened
  /-- The file is emptied, and writing fails behind some bytes. -/
  | failed (written : Nat) (message : String)
  /-- The process stops behind some bytes. -/
  | stopped (written : Nat)
  | done
deriving DecidableEq, Repr

section

variable [SerdeJson] [Chrono]

/-- The bytes a snapshot is saved as. -/
def fileBytes (snapshot : Snapshot) : List UInt8 := toVecPretty (Snapshot.codec.ser snapshot)

/-- `FileCheckpointer::save`: what it returns, unless the process stops, and what the file holds
then. -/
def FileCheckpointer.save (snapshot : Snapshot) (file : Option (List UInt8)) :
    WriteEnd → Option (Except CheckpointerError Unit) × Option (List UInt8)
  | .refused message => (some (.error (.io message)), file)
  | .unopened => (none, file)
  | .failed written message =>
    (some (.error (.io message)), some ((fileBytes snapshot).take written))
  | .stopped written => (none, some ((fileBytes snapshot).take written))
  | .done => (some (.ok ()), some (fileBytes snapshot))

variable [JsonReader]

/-- `serde_json::from_slice`, for snapshots. -/
def Snapshot.fromSlice (bytes : List UInt8) : Except String Snapshot := do
  (Snapshot.codec.de (← JsonReader.fromSlice bytes)).mapError SerdeJson.errorText

/-- `FileCheckpointer::load`. -/
def FileCheckpointer.load (read : Except ReadError (List UInt8)) :
    Except CheckpointerError (Option Snapshot) :=
  match read with
  | .ok bytes => some <$> (Snapshot.fromSlice bytes).mapError .serialize
  | .error .notFound => .ok none
  | .error (.other message) => .error (.io message)

/-- The document of one snapshot is shallow enough for the reader, and means another one to it. -/
def Snapshot.ReadsBackAs (s t : Snapshot) : Prop := s.Shallow ∧ Snapshot.codec.Reads s t

omit [JsonReader] in
theorem Snapshot.ReadsBackAs.unique {s t u : Snapshot} (ht : s.ReadsBackAs t)
    (hu : s.ReadsBackAs u) : t = u :=
  Except.ok.inj ((Snapshot.read_ser.mpr ht).symm.trans (Snapshot.read_ser.mpr hu))

omit [JsonReader] in
/-- What was built from restorable values is read back as it is. -/
theorem Snapshot.Keyed.readsBackAs_self {s : Snapshot} (h : s.Keyed) :
    s.ReadsBackAs s ↔ s.Restorable :=
  Snapshot.read_ser.symm.trans h.read_self

/-- Every byte of a document is read like the document. -/
theorem Snapshot.fromSlice_fileBytes (s : Snapshot) :
    (Snapshot.fromSlice (fileBytes s)).mapError .serialize =
      Snapshot.read (Snapshot.codec.ser s) := by
  have hread : Snapshot.read (Snapshot.codec.ser s) =
      (((Snapshot.codec.ser s).reparse >>= Snapshot.codec.de).mapError
        SerdeJson.errorText).mapError .serialize := by
    rw [Snapshot.read]
    cases (Snapshot.codec.ser s).reparse >>= Snapshot.codec.de <;> rfl
  rw [hread, Snapshot.fromSlice, fileBytes, JsonReader.fromSlice_pretty]
  cases (Snapshot.codec.ser s).reparse <;> rfl

/-- A save that is done leaves what the checkpointer keeps. -/
theorem FileCheckpointer.load_done (path : String) (s : Snapshot) (file : Option (List UInt8))
    (medium : (fileCheckpointer path).Medium) :
    FileCheckpointer.load (fsRead (FileCheckpointer.save s file .done).2) =
      (fileCheckpointer path).load ((fileCheckpointer path).save s medium) :=
  congrArg (some <$> ·) (Snapshot.fromSlice_fileBytes s)

theorem FileCheckpointer.load_fileBytes {s t : Snapshot} :
    FileCheckpointer.load (fsRead (some (fileBytes s))) = .ok (some t) ↔ s.ReadsBackAs t := by
  rw [fsRead, FileCheckpointer.load, Snapshot.fromSlice_fileBytes, Snapshot.ReadsBackAs,
    ← Snapshot.read_ser]
  cases Snapshot.read (Snapshot.codec.ser s) <;> simp [Functor.map, Except.map]

/-- The first bytes of a document are no document. -/
theorem FileCheckpointer.load_take {s t : Snapshot} {written : Nat} :
    FileCheckpointer.load (fsRead (some ((fileBytes s).take written))) = .ok (some t) ↔
      (fileBytes s).length ≤ written ∧ s.ReadsBackAs t := by
  by_cases hall : (fileBytes s).length ≤ written
  · rw [List.take_of_length_le hall, FileCheckpointer.load_fileBytes]
    exact (and_iff_right hall).symm
  · refine iff_of_false (fun hload => hall ?_) fun h => hall h.1
    obtain ⟨entries, hentries⟩ : ∃ entries, Snapshot.codec.ser s = .obj entries := ⟨_, rfl⟩
    have hread : ∃ j, JsonReader.fromSlice ((fileBytes s).take written) = .ok j := by
      rw [fsRead, FileCheckpointer.load, Snapshot.fromSlice] at hload
      cases hj : JsonReader.fromSlice ((fileBytes s).take written) with
      | ok j => exact ⟨j, rfl⟩
      | error e =>
        rw [hj] at hload
        cases hload
    obtain ⟨j, hj⟩ := hread
    have hclosed := JsonReader.closed_of_fromSlice _ _ hj
    rw [fileBytes, hentries] at hclosed ⊢
    exact (closed_take_toVecPretty_iff entries written).mp hclosed

/-- After a save over a previous one that snapshot is loaded, or the new one; and the previous one
if the save returned an error. -/
def FileCheckpointer.AllOrNothing (prev new : Snapshot) (e : WriteEnd) : Prop :=
  let saved := FileCheckpointer.save new (some (fileBytes prev)) e
  let loaded := FileCheckpointer.load (fsRead saved.2)
  (loaded = .ok (some prev) ∨ loaded = .ok (some new)) ∧
    ((∃ error, saved.1 = some (.error error)) → loaded = .ok (some prev))

omit [JsonReader] in
/-- The file is not emptied, or all of the new document is written; and the reader makes of the
document that is there what is asked for. -/
def WriteEnd.Keeps (prev new : Snapshot) : WriteEnd → Prop
  | .refused _ => prev.ReadsBackAs prev
  | .unopened => prev.ReadsBackAs prev ∨ prev.ReadsBackAs new
  | .failed written _ => (fileBytes new).length ≤ written ∧ new.ReadsBackAs prev
  | .stopped written =>
    (fileBytes new).length ≤ written ∧ (new.ReadsBackAs prev ∨ new.ReadsBackAs new)
  | .done => new.ReadsBackAs prev ∨ new.ReadsBackAs new

omit [JsonReader] in
/-- Between two snapshots that are read back as they are, it is only a matter of the bytes. -/
theorem WriteEnd.keeps_restorable {prev new : Snapshot} (hprev : prev.ReadsBackAs prev)
    (hnew : new.ReadsBackAs new) (hne : prev ≠ new) (e : WriteEnd) :
    e.Keeps prev new ↔ match e with
      | .refused _ | .unopened | .done => True
      | .failed _ _ => False
      | .stopped written => (fileBytes new).length ≤ written := by
  cases e with
  | refused => exact iff_true_intro hprev
  | unopened => exact iff_true_intro (Or.inl hprev)
  | failed => exact iff_false_intro fun h => hne (h.2.unique hnew)
  | stopped => exact and_iff_left (Or.inr hnew)
  | done => exact iff_true_intro (Or.inr hnew)

omit [SerdeJson] [Chrono] [JsonReader] in
/-- Of a save that returned an error only the previous snapshot may be left. -/
private theorem left_after_error {p q : Prop} (error : CheckpointerError) :
    (p ∨ q) ∧ ((∃ e, (some (.error error) : Option (Except CheckpointerError Unit)) =
      some (.error e)) → p) ↔ p :=
  ⟨fun h => h.2 ⟨error, rfl⟩, fun h => ⟨Or.inl h, fun _ => h⟩⟩

omit [SerdeJson] [Chrono] [JsonReader] in
/-- Of any other save both may be. -/
private theorem left_without_error {p q : Prop} {result : Option (Except CheckpointerError Unit)}
    (h : ∀ e, result ≠ some (.error e)) :
    (p ∨ q) ∧ ((∃ e, result = some (.error e)) → p) ↔ p ∨ q :=
  and_iff_left fun ⟨e, he⟩ => absurd he (h e)

/-- A save is all or nothing exactly if it does not end between the emptied file and the last byte,
and the document that is left is read back. -/
theorem FileCheckpointer.allOrNothing_iff (prev new : Snapshot) (e : WriteEnd) :
    FileCheckpointer.AllOrNothing prev new e ↔ e.Keeps prev new := by
  unfold FileCheckpointer.AllOrNothing
  cases e with
  | refused message =>
    exact (left_after_error (.io message)).trans FileCheckpointer.load_fileBytes
  | unopened =>
    refine (left_without_error fun _ h => by cases h).trans ?_
    exact or_congr FileCheckpointer.load_fileBytes FileCheckpointer.load_fileBytes
  | failed written message =>
    exact (left_after_error (.io message)).trans FileCheckpointer.load_take
  | stopped written =>
    refine (left_without_error fun _ h => by cases h).trans (Iff.trans ?_ and_or_left.symm)
    exact or_congr FileCheckpointer.load_take FileCheckpointer.load_take
  | done =>
    refine (left_without_error fun _ h => by cases h).trans ?_
    exact or_congr FileCheckpointer.load_fileBytes FileCheckpointer.load_fileBytes

end

private def emptyVersion (version : UInt64) : Snapshot := ⟨.empty, .empty, version⟩

private theorem readsBack_emptyVersion [SerdeJson] [Chrono] (version : UInt64) :
    (emptyVersion version).ReadsBackAs (emptyVersion version) := by
  have hbuilt : (emptyVersion version).Built :=
    ⟨Ontology.Built.bare _ _ _, ProvenanceLog.Built.empty⟩
  refine hbuilt.keyed.readsBackAs_self.mpr ⟨⟨⟨?_, ?_⟩, ?_, ?_⟩, ?_, ?_, ?_, ?_⟩
  all_goals simp [emptyVersion, Ontology.empty, ProvenanceLog.empty]

/-- The file holds a snapshot that is loaded. A save that is stopped when the file was just emptied
leaves nothing to load, and so does one that returns an error there. -/
theorem FileCheckpointer.emptied_file_loses_both :
    let _ := SerdeJson.plain
    let _ := Chrono.plain
    let _ := JsonReader.plain
    FileCheckpointer.load (fsRead (some (fileBytes (emptyVersion 1)))) =
        .ok (some (emptyVersion 1)) ∧
      ¬FileCheckpointer.AllOrNothing (emptyVersion 1) (emptyVersion 2) (.stopped 0) ∧
      ¬FileCheckpointer.AllOrNothing (emptyVersion 1) (emptyVersion 2)
        (.failed 0 "No space left on device") := by
  intro _ _ _
  have hlength : ¬(fileBytes (emptyVersion 2)).length ≤ 0 := by
    rw [Nat.le_zero, List.length_eq_zero_iff]
    intro hnil
    exact (closed_toVecPretty _).1 (List.map_eq_nil_iff.mpr hnil)
  have hempty : ∀ s,
      FileCheckpointer.load (fsRead (some ((fileBytes (emptyVersion 2)).take 0))) ≠ .ok (some s) :=
    fun s hload => hlength (FileCheckpointer.load_take.mp hload).1
  refine ⟨FileCheckpointer.load_fileBytes.mpr (readsBack_emptyVersion 1), ?_, ?_⟩
  · intro h
    exact h.1.elim (hempty _) (hempty _)
  · intro h
    exact h.1.elim (hempty _) (hempty _)

end AtomrOntology
