import AtomrOntology.Core.JsonText
import AtomrOntology.Persist.Checkpointer
import AtomrOntology.Persist.Nesting

/-!
# What a restart finds

A snapshot is restored from its document exactly when the reader restores its floats
and its JSON values stay within the nesting limit. A save never looks at either, so
a commit can succeed and leave a medium that a new store cannot start from.
-/

namespace AtomrOntology

/-- The ontology and the ledger come from the upserts and the recorders. -/
structure Snapshot.Built (s : Snapshot) : Prop where
  ontology : s.ontology.Built
  provenance : s.provenance.Built

theorem Snapshot.Built.keyed {s : Snapshot} (h : s.Built) : s.Keyed :=
  ⟨h.ontology.keyed, h.provenance.keyed⟩

section Restart

variable [SerdeJson]

/-- The reader can restore a snapshot from its document. -/
structure Snapshot.Restorable (s : Snapshot) : Prop where
  readable : s.Readable
  shallow : s.Shallow

variable [Chrono]

theorem Snapshot.read_eq_ok {j : Json} {s : Snapshot} :
    Snapshot.read j = .ok s ↔ ∃ j', j.reparse = .ok j' ∧ Snapshot.codec.de j' = .ok s := by
  rw [← bind_eq_ok, Snapshot.read]
  cases j.reparse >>= Snapshot.codec.de <;> simp

/-- Reading the document of one snapshot as another. -/
theorem Snapshot.read_ser {s t : Snapshot} :
    Snapshot.read (Snapshot.codec.ser s) = .ok t ↔ s.Shallow ∧ Snapshot.codec.Reads s t := by
  have hlimit : (Snapshot.codec.ser s).depth < Json.recursionLimit ↔ s.Shallow := by
    rw [← Snapshot.fits_codec, ← Codec.depth_ser_le, Json.recursionLimit]
    omega
  rw [Snapshot.read_eq_ok]
  simp only [Json.reparse_eq_ok, hlimit]
  constructor
  · intro h
    obtain ⟨j, ⟨hs, hj⟩, hd⟩ := h
    exact ⟨hs, j, hj, hd⟩
  · intro h
    obtain ⟨hs, j, hj, hd⟩ := h
    exact ⟨j, ⟨hs, hj⟩, hd⟩

/-- The version is never lost. -/
theorem Snapshot.Reads.version {s t : Snapshot} (h : Snapshot.codec.Reads s t) :
    t.version = s.version := by
  obtain ⟨w, hw, ht⟩ := Codec.reads_refine.mp h
  simp only [SnapshotWire.codec, SnapshotWire.ofSnapshot, Codec.reads_iso, Codec.reads_record,
    Fields.reads_both, Fields.reads_required, Equiv.coe_fn_mk,
    (Codec.survives_u64 _).reads_iff] at hw
  obtain ⟨_, _, ht⟩ := bind_eq_ok.mp ht
  obtain ⟨_, _, ht⟩ := bind_eq_ok.mp ht
  rw [← Except.ok.inj ht, hw.2.2]

/-- A keyed snapshot is restored from its document exactly when it is restorable. -/
theorem Snapshot.Keyed.read_self {s : Snapshot} (h : s.Keyed) :
    Snapshot.read (Snapshot.codec.ser s) = .ok s ↔ s.Restorable := by
  rw [Snapshot.read_ser, Codec.reads_self, Snapshot.survives_codec]
  constructor
  · intro hr
    exact ⟨hr.2.2, hr.1⟩
  · intro hr
    exact ⟨hr.shallow, h, hr.readable⟩

omit [SerdeJson] [Chrono] in
private theorem currentRow_concat (rows : List SnapshotRow) (r : SnapshotRow) :
    currentRow (rows ++ [r]) = SnapshotRow.prefer (currentRow rows) r := by
  rw [currentRow, List.foldl_append]
  rfl

omit [SerdeJson] [Chrono] in
private theorem currentRow_eq_none {rows : List SnapshotRow} (h : currentRow rows = none) :
    rows = [] := by
  cases rows using List.reverseRecOn with
  | nil => rfl
  | append_singleton rows r =>
    rw [currentRow_concat] at h
    cases hc : currentRow rows with
    | none => simp [hc, SnapshotRow.prefer] at h
    | some b =>
      simp only [hc, SnapshotRow.prefer] at h
      split at h <;> cases h

omit [SerdeJson] [Chrono] in
/-- The current row is a row of the highest version. -/
theorem currentRow_eq_some {rows : List SnapshotRow} {b : SnapshotRow}
    (h : currentRow rows = some b) : b ∈ rows ∧ ∀ r ∈ rows, r.version ≤ b.version := by
  induction rows using List.reverseRecOn generalizing b with
  | nil => cases h
  | append_singleton rows r ih =>
    rw [currentRow_concat] at h
    cases hc : currentRow rows with
    | none =>
      rw [hc] at h
      obtain rfl := Option.some.inj h
      simp [currentRow_eq_none hc]
    | some c =>
      obtain ⟨hmem, hmax⟩ := ih hc
      simp only [hc, SnapshotRow.prefer] at h
      simp only [List.mem_append, List.mem_singleton, or_imp, forall_and, forall_eq]
      by_cases hle : c.version ≤ r.version
      · rw [if_pos hle] at h
        obtain rfl := Option.some.inj h
        have hrows : ∀ x ∈ rows, x.version ≤ r.version := fun x hx =>
          Int64.le_trans (hmax x hx) hle
        exact ⟨Or.inr rfl, hrows, Int64.le_refl _⟩
      · rw [if_neg hle] at h
        obtain rfl := Option.some.inj h
        exact ⟨Or.inl hmem, hmax, Int64.le_of_lt (Int64.not_le.mp hle)⟩

omit [SerdeJson] [Chrono] in
/-- A row that no other outranks is the current one once it is added. -/
theorem currentRow_concat_of_le {rows : List SnapshotRow} {r : SnapshotRow}
    (h : ∀ b ∈ rows, b.version ≤ r.version) : currentRow (rows ++ [r]) = some r := by
  rw [currentRow_concat]
  cases hc : currentRow rows with
  | none => rfl
  | some b => simp [SnapshotRow.prefer, h b (currentRow_eq_some hc).1]

omit [SerdeJson] [Chrono] in
private theorem some_map_eq_ok {x : Except CheckpointerError Snapshot} {t : Snapshot} :
    some <$> x = .ok (some t) ↔ x = .ok t := by
  cases x <;> simp [Functor.map, Except.map]

omit [SerdeJson] [Chrono] in
private theorem some_map_ne_none (x : Except CheckpointerError Snapshot) :
    some <$> x ≠ .ok none := by
  cases x <;> simp [Functor.map, Except.map]

/-- The table that saving some snapshots one after another leaves. -/
def savedRows (path : String) (saved : List Snapshot) : (sqliteCheckpointer path).Medium :=
  saved.map SnapshotRow.ofSnapshot

/-- After a save the table is read through a row that no other outranks. -/
private theorem sqlite_load_current (path : String) (saved : List Snapshot) (s : Snapshot) :
    ∃ u ∈ saved ++ [s], (∀ v ∈ saved ++ [s], v.version.toInt64 ≤ u.version.toInt64) ∧
      (sqliteCheckpointer path).load
          ((sqliteCheckpointer path).save s (savedRows path saved)) =
        some <$> Snapshot.read (Snapshot.codec.ser u) := by
  have hrows : saved.map SnapshotRow.ofSnapshot ++ [.ofSnapshot s] =
      (saved ++ [s]).map SnapshotRow.ofSnapshot := by simp
  simp only [sqliteCheckpointer, savedRows, hrows]
  cases hcur : currentRow ((saved ++ [s]).map SnapshotRow.ofSnapshot) with
  | none => simpa using currentRow_eq_none hcur
  | some b =>
    obtain ⟨hmem, hmax⟩ := currentRow_eq_some hcur
    obtain ⟨u, hu, rfl⟩ := List.mem_map.mp hmem
    exact ⟨u, hu, fun v hv => hmax _ (List.mem_map_of_mem hv), rfl⟩

/-- A save that no saved snapshot outranks is read through its own row. -/
private theorem sqlite_load_of_le (path : String) {saved : List Snapshot} {s : Snapshot}
    (h : ∀ u ∈ saved, u.version.toInt64 ≤ s.version.toInt64) :
    (sqliteCheckpointer path).load
        ((sqliteCheckpointer path).save s (savedRows path saved)) =
      some <$> Snapshot.read (Snapshot.codec.ser s) := by
  have hcur : currentRow (saved.map SnapshotRow.ofSnapshot ++ [.ofSnapshot s]) =
      some (.ofSnapshot s) :=
    currentRow_concat_of_le (by simpa [SnapshotRow.ofSnapshot] using h)
  simp only [sqliteCheckpointer, savedRows, hcur]
  rfl

omit [SerdeJson] [Chrono] in
/-- A new store starts with the committed state exactly when the snapshot just saved is
what is loaded. -/
private theorem new_commit {c : Checkpointer} {p : PersistentState} {m : c.Medium}
    {delta : OntologyDelta} {activity : Activity}
    (hne : ∀ s, c.load (c.save s m) ≠ .ok none) :
    PersistentStore.new c (PersistentStore.commitWithProvenance ⟨p, m⟩ delta activity).2.medium =
        .ok (p.commit delta activity) ↔
      c.load (c.save (p.commit delta activity).snapshot m) =
        .ok (some (p.commit delta activity).snapshot) :=
  PersistentStore.new_eq_ok_iff (s := (p.commit delta activity).snapshot) (hne _)

/-- A save through the file is loaded exactly when its document is read back. -/
theorem file_load_save {path : String} {medium : (fileCheckpointer path).Medium} {s : Snapshot} :
    (fileCheckpointer path).load ((fileCheckpointer path).save s medium) = .ok (some s) ↔
      Snapshot.read (Snapshot.codec.ser s) = .ok s :=
  some_map_eq_ok

/-- A save through the table is loaded exactly when besides no saved snapshot outranks it. -/
theorem sqlite_load_save {path : String} {saved : List Snapshot} {s : Snapshot} :
    (sqliteCheckpointer path).load
        ((sqliteCheckpointer path).save s (savedRows path saved)) = .ok (some s) ↔
      Snapshot.read (Snapshot.codec.ser s) = .ok s ∧
        ∀ u ∈ saved, u.version.toInt64 ≤ s.version.toInt64 := by
  constructor
  · intro h
    -- what is read has the saved version, so its row outranks every other
    obtain ⟨u, hu, hmax, hload⟩ := sqlite_load_current path saved s
    rw [hload, some_map_eq_ok] at h
    have hversion := Snapshot.Reads.version (Snapshot.read_ser.mp h).2
    have hrank : ∀ v ∈ saved, v.version.toInt64 ≤ s.version.toInt64 := by
      intro v hv
      rw [hversion]
      exact hmax v (List.mem_append_left _ hv)
    rw [sqlite_load_of_le path hrank] at hload
    exact ⟨some_map_eq_ok.mp (hload.trans (some_map_eq_ok.mpr h)), hrank⟩
  · intro h
    rw [sqlite_load_of_le path h.2]
    exact some_map_eq_ok.mpr h.1

/-- A store starts with the state just committed through the table exactly when that state
is restorable and no saved snapshot outranks it. -/
theorem sqlite_new_commit {path : String} {saved : List Snapshot} {p : PersistentState}
    {delta : OntologyDelta} {activity : Activity}
    (hkeyed : (p.commit delta activity).snapshot.Keyed) :
    PersistentStore.new (sqliteCheckpointer path)
        (PersistentStore.commitWithProvenance ⟨p, savedRows path saved⟩ delta activity).2.medium =
          .ok (p.commit delta activity) ↔
      (p.commit delta activity).snapshot.Restorable ∧
        ∀ u ∈ saved, u.version.toInt64 ≤ (p.commit delta activity).version.toInt64 := by
  have hne : ∀ s, (sqliteCheckpointer path).load
      ((sqliteCheckpointer path).save s (savedRows path saved)) ≠ .ok none := by
    intro s
    obtain ⟨u, -, -, hload⟩ := sqlite_load_current path saved s
    rw [hload]
    exact some_map_ne_none _
  rw [new_commit hne, sqlite_load_save]
  exact and_congr_left' hkeyed.read_self

/-- What was built is restored from its document exactly when it is restorable, and so is
the state a commit leaves through the file. Through the table it is restored when besides
no saved snapshot outranks it. -/
theorem Snapshot.Built.restored_iff {s : Snapshot} (h : s.Built) :
    (Snapshot.read (Snapshot.codec.ser s) = .ok s ↔ s.Restorable) ∧
    ∀ (p : PersistentState) (delta : OntologyDelta) (activity : Activity) (path : String),
      (p.commit delta activity).snapshot = s →
      (∀ medium : (fileCheckpointer path).Medium,
        PersistentStore.new (fileCheckpointer path)
          (PersistentStore.commitWithProvenance ⟨p, medium⟩ delta activity).2.medium =
            .ok (p.commit delta activity) ↔ s.Restorable) ∧
      ∀ saved : List Snapshot,
        PersistentStore.new (sqliteCheckpointer path)
          (PersistentStore.commitWithProvenance ⟨p, savedRows path saved⟩ delta
            activity).2.medium = .ok (p.commit delta activity) ↔
          s.Restorable ∧ ∀ u ∈ saved, u.version.toInt64 ≤ s.version.toInt64 := by
  refine ⟨h.keyed.read_self, ?_⟩
  intro p delta activity path hs
  subst hs
  constructor
  · intro medium
    rw [new_commit fun s => some_map_ne_none (Snapshot.read (Snapshot.codec.ser s)),
      file_load_save]
    exact h.keyed.read_self
  · intro saved
    exact sqlite_new_commit h.keyed

end Restart

/-- A delta with one node that has one property. -/
private def measured (v : PropertyValue) : OntologyDelta :=
  ⟨[⟨⟨Vector.replicate 32 1⟩, none, ["Sensor"],
    (∅ : BTreeMap String PropertyValue).insert "reading" v⟩],
    [], []⟩

private def calibration : Activity :=
  ⟨⟨Vector.replicate 32 2⟩, "calibration", .epoch, none, none, ∅⟩

/-- The state that one commit of such a delta leaves. -/
private def measuredState (v : PropertyValue) : PersistentState :=
  PersistentState.empty.commit (measured v) calibration

private theorem built_measuredState (v : PropertyValue) : (measuredState v).snapshot.Built :=
  ⟨(Ontology.Built.bare _ _ _).upsertNode _, ProvenanceLog.Built.empty.recordActivity _⟩

/-- A commit with a reading that is not a number succeeds, and the file it leaves cannot
be loaded any more. -/
theorem nan_commit_bricks_store :
    let committed := (@PersistentStore.commitWithProvenance
      (@fileCheckpointer .plain .plain "snap.json") ⟨.empty, none⟩ (measured (.float .nan))
        calibration)
    (measuredState (.float .nan)).snapshot.Built ∧ committed.1 = .ok calibration.id ∧
      committed.2.state = measuredState (.float .nan) ∧
      (@PersistentStore.new (@fileCheckpointer .plain .plain "snap.json")
        committed.2.medium).isOk = false := by
  refine ⟨built_measuredState _, rfl, rfl, ?_⟩
  decide +kernel

/-- A commit with an integer reading is restored. -/
theorem restored_iff_integer_reading :
    @Snapshot.read .plain .plain (@Codec.ser _ (@Snapshot.codec .plain .plain)
      (measuredState (.integer 7)).snapshot) = .ok (measuredState (.integer 7)).snapshot := by
  let _ := SerdeJson.plain
  let _ := Chrono.plain
  have hrestorable : (measuredState (.integer 7)).snapshot.Restorable := by
    refine ⟨⟨⟨?_, ?_⟩, ?_, ?_⟩, ?_, ?_, ?_, ?_⟩
    all_goals
      simp [measuredState, measured, calibration, PersistentState.commit, PersistentState.empty,
        PersistentState.snapshot, Ontology.applyDelta, Ontology.empty, Ontology.upsertNode,
        ProvenanceLog.empty, ProvenanceLog.recordActivity, PropertyValue.Readable,
        PropertyValue.nesting, ReadableAttributes]
  exact (Snapshot.Built.restored_iff (built_measuredState (.integer 7))).1.mpr hrestorable

end AtomrOntology
