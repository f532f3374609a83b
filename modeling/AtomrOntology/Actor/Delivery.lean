import AtomrOntology.Actor.Ingest

/-!
# Is every event sent exactly once?

The cursor to resume from is read after the journal, so an event pushed in between counts
as seen although no batch carries it. Without such a push the batches sent so far carry
every event before the cursor once; no event is ever in two batches.
-/

namespace AtomrOntology

namespace IngestRun

variable (mode : IngestMode)

/-- Every event that was pushed before a completed round started, after the cursor the run
started from, is in exactly one batch, and no event is in two. -/
structure ExactlyOnce (paths : List SupervisionPath) (states : BTreeMap ActorId SerializedState)
    (actions : List Action) : Prop where
  delivered : ∀ before after, actions = before ++ .ingest :: after →
    ((init mode paths states).run mode before).phase = .waiting →
    ((init mode paths states).run mode actions).phase = .waiting →
    ∀ e ∈ ((init mode paths states).run mode before).source.journal,
      mode.start.version < e.cursor.version →
      ∃! i : Nat, ∃ b : ActorBatch,
        ((init mode paths states).run mode actions).sent[i]? = some b ∧ e ∈ b.events
  once : ∀ (i j : Nat) (b b' : ActorBatch) (e : JournalEvent),
    ((init mode paths states).run mode actions).sent[i]? = some b →
    ((init mode paths states).run mode actions).sent[j]? = some b' →
    e ∈ b.events → e ∈ b'.events → i = j

/-- The journal was read, and the round will go on to read the cursor. -/
def cursorPending (r : IngestRun) : Bool :=
  match r.phase with
  | .journaled events => !mode.givesUp r.source.paths events
  | .gathering _ _ _ _ => true
  | _ => false

/-- The step pushes no event between the two reads of one round. -/
def Quiet (r : IngestRun) : Action → Prop
  | .pushEvent _ => r.cursorPending mode = false
  | .ingest => True

/-- Every step of an interleaving is quiet. -/
def Undisturbed : IngestRun → List Action → Prop
  | _, [] => True
  | r, a :: as => r.Quiet mode a ∧ Undisturbed (r.step mode a) as

instance (r : IngestRun) (a : Action) : Decidable (r.Quiet mode a) :=
  match a with
  | .pushEvent _ => inferInstanceAs (Decidable (_ = _))
  | .ingest => .isTrue trivial

instance instDecidableUndisturbed :
    (r : IngestRun) → (as : List Action) → Decidable (Undisturbed mode r as)
  | _, [] => .isTrue trivial
  | r, a :: as =>
    let _ := instDecidableUndisturbed (r.step mode a) as
    inferInstanceAs (Decidable (_ ∧ _))

/-- The events of a batch about to be sent. -/
def outgoing : IngestPhase → List JournalEvent
  | .sending batch => batch.events
  | _ => []

/-- The events of all batches in the order of the batches. -/
def collected (r : IngestRun) : List JournalEvent :=
  r.sent.flatMap ActorBatch.events ++ outgoing r.phase

/-- The position in the journal that the next round starts from. -/
def position (r : IngestRun) : Nat := r.cursor.version.toNat

/-- What was collected is the journal between a position up to the start and the cursor.
A cursor beyond the journal has collected nothing. -/
def CaughtUp (r : IngestRun) : Prop :=
  ∃ base, base ≤ mode.start.version.toNat ∧ base ≤ r.position ∧
    (r.position ≤ r.source.journal.length ∨ base = r.position) ∧
    r.collected = (r.source.journal.take r.position).drop base

/-- What a round holds when it is going to read the cursor is the rest of the journal. -/
def UpToDate (r : IngestRun) : Prop :=
  match r.phase with
  | .woken since => since = r.cursor
  | .journaled events =>
    r.cursorPending mode = true → events = r.source.journal.drop r.position
  | .gathering _ events _ _ => events = r.source.journal.drop r.position
  | _ => True

/-- The invariant of an undisturbed run. -/
structure Invariant (r : IngestRun) : Prop where
  numbered : r.source.Numbered
  caughtUp : r.CaughtUp mode
  upToDate : r.UpToDate mode

/-- At first nothing was delivered. -/
theorem Invariant.init (paths : List SupervisionPath)
    (states : BTreeMap ActorId SerializedState) : Invariant mode (init mode paths states) where
  numbered := ⟨rfl, rfl⟩
  caughtUp := by
    refine ⟨mode.start.version.toNat, le_rfl, le_rfl, Or.inr rfl, ?_⟩
    simp [IngestRun.init, collected, outgoing]
  upToDate := trivial

variable {mode}

/-- After reading paths nothing was sent yet. -/
@[simp] theorem outgoing_afterPaths (paths : List SupervisionPath) (events : List JournalEvent) :
    outgoing (mode.afterPaths paths events) = [] := by
  unfold IngestMode.afterPaths
  split <;> rfl

/-- Nor after reading the journal. -/
@[simp] theorem outgoing_afterJournal (events : List JournalEvent) :
    outgoing (mode.afterJournal events) = [] := by
  unfold IngestMode.afterJournal
  split
  · exact outgoing_afterPaths [] events
  · rfl

/-- Only reading the cursor collects something. -/
theorem collected_advance (r : IngestRun) :
    (r.advance mode).collected = r.collected ∧ (r.advance mode).cursor = r.cursor ∨
      ∃ paths events states, r.phase = .gathering paths events [] states ∧
        (r.advance mode).collected = r.collected ++ events ∧
        (r.advance mode).cursor = r.source.cursor := by
  unfold advance
  cases hphase : r.phase with
  | waiting => exact Or.inl ⟨by simp [collected, hphase, outgoing], rfl⟩
  | woken since =>
    refine Or.inl ⟨?_, rfl⟩
    simp only [collected, hphase, outgoing_afterJournal]
    rfl
  | journaled events =>
    refine Or.inl ⟨?_, rfl⟩
    simp only [collected, hphase, outgoing_afterPaths]
    rfl
  | gathering paths events ids states =>
    cases ids with
    | cons id ids => exact Or.inl ⟨by simp [collected, hphase, outgoing], rfl⟩
    | nil => exact Or.inr ⟨paths, events, states, rfl, by simp [collected, hphase, outgoing], rfl⟩
  | sending batch =>
    refine Or.inl ⟨?_, rfl⟩
    by_cases hsends : mode.sends batch = true
    · simp [collected, hphase, outgoing, hsends]
    · -- a batch that is kept back is empty
      have hempty : batch.events = [] := by
        cases mode with
        | polling start includePaths => exact absurd rfl hsends
        | pushHook =>
          have he : batch.isEmpty = true := by simpa [IngestMode.sends] using hsends
          simp only [ActorBatch.isEmpty, Bool.and_eq_true, List.isEmpty_iff] at he
          exact he.1.2
      simp [collected, hphase, outgoing, hsends, hempty]

/-- The consumer stays caught up when it advances. -/
theorem CaughtUp.advance {r : IngestRun} (h : Invariant mode r) :
    (r.advance mode).CaughtUp mode := by
  obtain ⟨base, hstart, hbase, hpos, hcollected⟩ := h.caughtUp
  obtain ⟨hsame, hcursor⟩ | ⟨paths, events, states, hphase, hmore, hcursor⟩ :=
    @collected_advance mode r
  · refine ⟨base, hstart, ?_⟩
    rw [hsame, advance_source, position, hcursor]
    exact ⟨hbase, hpos, hcollected⟩
  · have hevents := h.upToDate
    rw [UpToDate, hphase] at hevents
    have hlen : (r.advance mode).position = r.source.journal.length := by
      rw [position, hcursor, h.numbered.cursor]
    have hrest : (r.advance mode).collected =
        (r.source.journal.take r.position).drop base ++ r.source.journal.drop r.position := by
      rw [hmore, hcollected, hevents]
    unfold CaughtUp
    rw [hrest, hlen, advance_source, List.take_length]
    rcases hpos with hle | heq
    · refine ⟨base, hstart, by omega, Or.inl le_rfl, ?_⟩
      rw [← List.drop_append_of_le_length (by rw [List.length_take]; omega),
        List.take_append_drop]
    · -- nothing was collected so far
      rw [heq, List.drop_eq_nil_of_le (List.length_take_le _ _), List.nil_append]
      by_cases hle : r.position ≤ r.source.journal.length
      · exact ⟨r.position, heq ▸ hstart, hle, Or.inl le_rfl, rfl⟩
      · refine ⟨r.source.journal.length, by omega, le_rfl, Or.inl le_rfl, ?_⟩
        rw [List.drop_length, List.drop_eq_nil_of_le (by omega)]

/-- Events that were read are those not delivered yet. -/
theorem UpToDate.afterPaths {r : IngestRun} {paths : List SupervisionPath}
    {events : List JournalEvent}
    (h : mode.givesUp paths events = false → events = r.source.journal.drop r.position) :
    UpToDate mode { r with phase := mode.afterPaths paths events } := by
  unfold UpToDate IngestMode.afterPaths
  by_cases hgives : mode.givesUp paths events = true
  · simp only [hgives, ↓reduceIte]
  · simp only [hgives, Bool.false_eq_true, ↓reduceIte]
    exact h (Bool.not_eq_true _ ▸ hgives)

/-- So are those read from the journal. -/
theorem UpToDate.afterJournal {r : IngestRun} {events : List JournalEvent}
    (h : events = r.source.journal.drop r.position) :
    UpToDate mode { r with phase := mode.afterJournal events } := by
  unfold IngestMode.afterJournal
  split
  · exact UpToDate.afterPaths fun _ => h
  · exact fun _ => h

/-- The consumer stays up to date when it advances. -/
theorem UpToDate.advance {r : IngestRun} (h : Invariant mode r) :
    (r.advance mode).UpToDate mode := by
  have hdate := h.upToDate
  unfold UpToDate at hdate
  cases hphase : r.phase with
  | waiting =>
    simp only [IngestRun.advance, hphase]
    rfl
  | woken since =>
    simp only [hphase] at hdate
    simp only [IngestRun.advance, hphase, hdate]
    exact UpToDate.afterJournal (h.numbered.journalSince r.cursor)
  | journaled events =>
    simp only [hphase, cursorPending, Bool.not_eq_true'] at hdate
    simp only [IngestRun.advance, hphase]
    exact UpToDate.afterPaths hdate
  | gathering paths events ids states =>
    simp only [hphase] at hdate
    cases ids with
    | nil => simp only [IngestRun.advance, hphase, UpToDate]
    | cons id ids =>
      simp only [IngestRun.advance, hphase, UpToDate]
      exact hdate
  | sending batch => simp only [IngestRun.advance, hphase, UpToDate]

/-- A pushed event lies behind the cursor unless the cursor lies beyond the journal. -/
theorem CaughtUp.pushEvent {r : IngestRun} (h : r.CaughtUp mode) (event : JournalEvent) :
    (r.step mode (.pushEvent event)).CaughtUp mode := by
  obtain ⟨base, hstart, hbase, hpos, hcollected⟩ := h
  refine ⟨base, hstart, hbase, ?_, ?_⟩
  · rcases hpos with hlen | heq
    · left
      have : r.source.journal.length ≤ (r.source.pushEvent event).journal.length := by
        simp [InMemorySource.pushEvent]
      exact Nat.le_trans hlen this
    · exact Or.inr heq
  · change r.collected = ((r.source.pushEvent event).journal.take r.position).drop base
    rw [hcollected]
    rcases hpos with hlen | heq
    · simp only [InMemorySource.pushEvent]
      rw [List.take_append_of_le_length hlen]
    · rw [heq, List.drop_eq_nil_of_le (List.length_take_le _ _),
        List.drop_eq_nil_of_le (List.length_take_le _ _)]

/-- A quiet push leaves what a round holds up to date. -/
theorem UpToDate.pushEvent {r : IngestRun} (h : r.UpToDate mode) {event : JournalEvent}
    (hquiet : r.Quiet mode (.pushEvent event)) :
    (r.step mode (.pushEvent event)).UpToDate mode := by
  unfold Quiet at hquiet
  unfold UpToDate at h ⊢
  cases hphase : r.phase with
  | waiting => simp only [step, hphase]
  | woken since => simpa only [step, hphase] using h
  | journaled events =>
    have hsame : (r.step mode (.pushEvent event)).cursorPending mode = r.cursorPending mode := by
      simp only [step, cursorPending, InMemorySource.pushEvent]
    simp only [step, hphase] at hsame ⊢
    intro hpending
    rw [hsame, hquiet] at hpending
    cases hpending
  | gathering paths events ids states =>
    rw [cursorPending, hphase] at hquiet
    cases hquiet
  | sending batch => simp only [step, hphase]

/-- A quiet step keeps the invariant. -/
theorem Invariant.step {r : IngestRun} (h : Invariant mode r) {a : Action} (hquiet : r.Quiet mode a)
    (hmax : (r.step mode a).source.cursor.version.toNat < 2 ^ 64 - 1) :
    Invariant mode (r.step mode a) := by
  cases a with
  | ingest => exact ⟨(advance_source mode r).symm ▸ h.numbered, .advance h, .advance h⟩
  | pushEvent event =>
    exact ⟨h.numbered.pushEvent event hmax, h.caughtUp.pushEvent event, h.upToDate.pushEvent hquiet⟩

/-- An undisturbed run keeps the invariant. -/
theorem Invariant.run {r : IngestRun} (h : Invariant mode r) {as : List Action}
    (hquiet : Undisturbed mode r as)
    (hmax : (r.run mode as).source.cursor.version.toNat < 2 ^ 64 - 1) :
    Invariant mode (r.run mode as) := by
  induction as generalizing r with
  | nil => exact h
  | cons a as ih =>
    have hle := version_le_run mode (r.step mode a) as
    exact ih (h.step hquiet.1 (Nat.lt_of_le_of_lt hle hmax)) hquiet.2 hmax

/-- The journal up to a length is behind the cursor once a round ends that read it. -/
def Covers (n : Nat) (r : IngestRun) : Prop :=
  n ≤ r.source.journal.length ∧
    match r.phase with
    | .waiting | .sending _ | .journaled [] => n ≤ r.position
    | _ => True

theorem Covers.afterPaths {n : Nat} {r : IngestRun} (hlen : n ≤ r.source.journal.length)
    {paths : List SupervisionPath} {events : List JournalEvent}
    (h : events = [] → n ≤ r.position) :
    Covers n { r with phase := mode.afterPaths paths events } := by
  unfold IngestMode.afterPaths
  by_cases hgives : mode.givesUp paths events = true
  · have hevents : events = [] := by
      cases mode with
      | polling start includePaths =>
        simp only [IngestMode.givesUp, Bool.and_eq_true, List.isEmpty_iff] at hgives
        exact hgives.1
      | pushHook => cases hgives
    simp only [hgives, ↓reduceIte]
    exact ⟨hlen, h hevents⟩
  · simp only [hgives, Bool.false_eq_true, ↓reduceIte]
    exact ⟨hlen, trivial⟩

theorem Covers.afterJournal {n : Nat} {r : IngestRun} (hlen : n ≤ r.source.journal.length) :
    Covers n { r with phase := mode.afterJournal (r.source.journal.drop r.position) } := by
  have hnil : r.source.journal.drop r.position = [] → n ≤ r.position := by
    intro h
    have := List.drop_eq_nil_iff.mp h
    omega
  unfold IngestMode.afterJournal
  split
  · exact Covers.afterPaths hlen hnil
  · refine ⟨hlen, ?_⟩
    cases hrest : r.source.journal.drop r.position with
    | nil => exact hnil hrest
    | cons e es => trivial

/-- What is covered stays covered. -/
theorem Covers.step {n : Nat} {r : IngestRun} (h : Covers n r) (hinv : Invariant mode r)
    (a : Action) : Covers n (r.step mode a) := by
  obtain ⟨hlen, hpos⟩ := h
  cases a with
  | pushEvent event =>
    refine ⟨?_, hpos⟩
    have : r.source.journal.length ≤ (r.source.pushEvent event).journal.length := by
      simp [InMemorySource.pushEvent]
    exact Nat.le_trans hlen this
  | ingest =>
    cases hphase : r.phase with
    | waiting =>
      simp only [IngestRun.step, IngestRun.advance, hphase]
      exact ⟨hlen, trivial⟩
    | woken since =>
      have hsince := hinv.upToDate
      rw [UpToDate, hphase] at hsince
      simp only [IngestRun.step, IngestRun.advance, hphase, hsince]
      rw [hinv.numbered.journalSince]
      exact Covers.afterJournal hlen
    | journaled events =>
      simp only [IngestRun.step, IngestRun.advance, hphase]
      apply Covers.afterPaths hlen
      intro hnil
      rw [hphase, hnil] at hpos
      exact hpos
    | gathering paths events ids states =>
      simp only [IngestRun.step, IngestRun.advance, hphase]
      cases ids with
      | nil => exact ⟨hlen, by simpa only [position, hinv.numbered.cursor] using hlen⟩
      | cons id ids => exact ⟨hlen, trivial⟩
    | sending batch =>
      simp only [IngestRun.step, IngestRun.advance, hphase]
      rw [hphase] at hpos
      exact ⟨hlen, hpos⟩

/-- What is covered stays covered in an undisturbed run. -/
theorem Covers.run {n : Nat} {r : IngestRun} (h : Covers n r) (hinv : Invariant mode r)
    {as : List Action} (hquiet : Undisturbed mode r as)
    (hmax : (r.run mode as).source.cursor.version.toNat < 2 ^ 64 - 1) :
    Covers n (r.run mode as) := by
  induction as generalizing r with
  | nil => exact h
  | cons a as ih =>
    have hle := version_le_run mode (r.step mode a) as
    exact ih (h.step hinv a) (hinv.step hquiet.1 (Nat.lt_of_le_of_lt hle hmax)) hquiet.2 hmax

/-- A run is undisturbed if both of its parts are. -/
theorem undisturbed_append {r : IngestRun} {as bs : List Action} :
    Undisturbed mode r (as ++ bs) ↔
    Undisturbed mode r as ∧ Undisturbed mode (r.run mode as) bs := by
  induction as generalizing r with
  | nil => simp [Undisturbed, IngestRun.run]
  | cons a as ih =>
    rw [List.cons_append, Undisturbed, Undisturbed, ih, run_cons, and_assoc]

/-- An event that was collected in a list without repetition is in one batch of it. -/
theorem eq_of_mem_batches {sent : List ActorBatch} (h : (sent.flatMap ActorBatch.events).Nodup)
    {i j : Nat} {b b' : ActorBatch} {e : JournalEvent} (hi : sent[i]? = some b)
    (hj : sent[j]? = some b') (hb : e ∈ b.events) (hb' : e ∈ b'.events) : i = j := by
  have hpair := List.pairwise_iff_getElem.mp (List.nodup_flatMap.mp h).2
  obtain ⟨hil, rfl⟩ := List.getElem?_eq_some_iff.mp hi
  obtain ⟨hjl, rfl⟩ := List.getElem?_eq_some_iff.mp hj
  rcases Nat.lt_trichotomy i j with hlt | heq | hgt
  · exact absurd hb' (hpair i j hil hjl hlt hb)
  · exact heq
  · exact absurd hb (hpair j i hjl hil hgt hb')

/-- An event after the start and before the cursor was collected. -/
theorem Invariant.mem_collected {r : IngestRun} (h : Invariant mode r) {e : JournalEvent}
    (he : e ∈ r.source.journal) (hstart : mode.start.version < e.cursor.version)
    (hpos : e.cursor.version.toNat ≤ r.position) : e ∈ r.collected := by
  obtain ⟨base, hbase, -, -, hcollected⟩ := h.caughtUp
  obtain ⟨k, hk, rfl⟩ := List.getElem_of_mem he
  have hversion := h.numbered.version_getElem hk
  rw [UInt64.lt_iff_toNat_lt] at hstart
  rw [hcollected]
  apply List.mem_drop_iff_getElem.mpr
  refine ⟨k - base, ?_, ?_⟩
  · rw [List.length_take]
    omega
  · rw [List.getElem_take]
    congr 1
    omega

/-- Nothing is delivered twice. -/
theorem Invariant.nodup {r : IngestRun} (h : Invariant mode r) : r.collected.Nodup := by
  obtain ⟨base, -, -, -, hcollected⟩ := h.caughtUp
  rw [hcollected]
  exact (h.numbered.nodup.sublist (List.take_sublist _ _)).sublist (List.drop_sublist _ _)

/-- A round that ends has collected what was in the journal when it started. -/
theorem Invariant.mem_collected_round {r : IngestRun} (h : Invariant mode r)
    (hr : r.phase = .waiting) {after : List Action} (hquiet : Undisturbed mode r (.ingest :: after))
    (hmax : (r.run mode (.ingest :: after)).source.cursor.version.toNat < 2 ^ 64 - 1)
    (hend : (r.run mode (.ingest :: after)).phase = .waiting) {e : JournalEvent}
    (he : e ∈ r.source.journal) (hstart : mode.start.version < e.cursor.version) :
    e ∈ (r.run mode (.ingest :: after)).collected := by
  have hwoken : Covers r.source.journal.length (r.step mode .ingest) := by
    simp only [IngestRun.step, IngestRun.advance, hr]
    exact ⟨le_rfl, trivial⟩
  have hle := version_le_run mode (r.step mode .ingest) after
  have hinv := h.step hquiet.1 (Nat.lt_of_le_of_lt hle hmax)
  have hpos := (hwoken.run hinv hquiet.2 hmax).2
  rw [← run_cons, hend] at hpos
  apply (h.run hquiet hmax).mem_collected ((journal_prefix_run mode r _).subset he) hstart
  obtain ⟨k, hk, rfl⟩ := List.getElem_of_mem he
  have hversion := h.numbered.version_getElem hk
  exact Nat.le_trans (by omega) hpos

/-- Both ingest modes send every event once in a run that pushes no event between reading
the journal and reading the cursor of a round. -/
theorem exactlyOnce_of_undisturbed (mode : IngestMode) (paths : List SupervisionPath)
    (states : BTreeMap ActorId SerializedState) (actions : List Action)
    (hmax : ((init mode paths states).run mode actions).source.cursor.version.toNat < 2 ^ 64 - 1)
    (hquiet : Undisturbed mode (init mode paths states) actions) :
    ExactlyOnce mode paths states actions := by
  have hinit := Invariant.init mode paths states
  have honce : ∀ (i j : Nat) (b b' : ActorBatch) (e : JournalEvent),
      ((init mode paths states).run mode actions).sent[i]? = some b →
      ((init mode paths states).run mode actions).sent[j]? = some b' →
      e ∈ b.events → e ∈ b'.events → i = j := by
    intro i j b b' e hi hj hb hb'
    exact eq_of_mem_batches (List.nodup_append.mp (hinit.run hquiet hmax).nodup).1 hi hj hb hb'
  refine ⟨?_, honce⟩
  intro before after hactions hx hy e he hstart
  subst hactions
  obtain ⟨hbefore, hafter⟩ := undisturbed_append.mp hquiet
  have hmem := (hinit.run hbefore (Nat.lt_of_le_of_lt (version_le_run mode _ _)
    (run_append mode _ before _ ▸ hmax))).mem_collected_round hx hafter
      (run_append mode _ before _ ▸ hmax) (run_append mode _ before _ ▸ hy) he hstart
  rw [← run_append] at hmem
  simp only [collected, hy, outgoing, List.append_nil] at hmem
  obtain ⟨b, hb, heb⟩ := List.mem_flatMap.mp hmem
  obtain ⟨i, hi⟩ := List.mem_iff_getElem?.mp hb
  refine ⟨i, ⟨b, hi, heb⟩, ?_⟩
  intro j hj
  obtain ⟨b', hj, heb'⟩ := hj
  exact honce j i b' b e hj hi heb' heb

/-- A run over an event pushed before a round and one pushed while its batch is sent. -/
theorem exactlyOnce_two_rounds :
    let event : JournalEvent := .new .beginning ⟨"a"⟩ .created .epoch
    let actions : List Action := .pushEvent event :: List.replicate 5 .ingest ++
      .pushEvent event :: List.replicate 6 .ingest
    ((init .pushHook [] ∅).run .pushHook actions).source.cursor = .at 2 ∧
      ExactlyOnce .pushHook [] ∅ actions := by
  refine ⟨by decide +kernel, ?_⟩
  exact exactlyOnce_of_undisturbed .pushHook [] ∅ _ (by decide +kernel) (by decide +kernel)

/-- The phase between two rounds. -/
def isWaiting : IngestPhase → Bool
  | .waiting => true
  | _ => false

theorem eq_waiting {p : IngestPhase} (h : isWaiting p = true) : p = .waiting := by
  cases p with
  | waiting => rfl
  | _ => cases h

/-- A version of the journal that no batch has after a further round was missed. -/
theorem not_exactlyOnce_of_missed {paths : List SupervisionPath}
    {states : BTreeMap ActorId SerializedState} (before after : List Action) (v : UInt64)
    (hx : ((init mode paths states).run mode before).phase = .waiting)
    (hy : ((init mode paths states).run mode (before ++ .ingest :: after)).phase = .waiting)
    (hv : v ∈ ((init mode paths states).run mode before).source.journal.map (·.cursor.version))
    (hstart : mode.start.version < v)
    (hsent : v ∉ (((init mode paths states).run mode (before ++ .ingest :: after)).sent.flatMap
      ActorBatch.events).map (·.cursor.version)) :
    ¬ ExactlyOnce mode paths states (before ++ .ingest :: after) := by
  intro h
  obtain ⟨e, he, rfl⟩ := List.mem_map.mp hv
  obtain ⟨i, ⟨b, hb, heb⟩, -⟩ := h.delivered before after rfl hx hy e he hstart
  apply hsent
  exact List.mem_map_of_mem (List.mem_flatMap.mpr ⟨b, List.mem_of_getElem? hb, heb⟩)

/-- A round that has read the journal when the second of two events is pushed. -/
def disturbedRound : List Action :=
  let event : JournalEvent := .new .beginning ⟨"a"⟩ .created .epoch
  [.pushEvent event, .ingest, .ingest, .pushEvent event, .ingest, .ingest, .ingest, .ingest]

/-- An event pushed between the two reads of a round is in no batch, of this round or of
the next, in either mode. -/
theorem event_between_reads_is_lost :
    let actions := disturbedRound ++ List.replicate 5 .ingest
    (((init (.polling .beginning true) [.parse "/a"] ∅).run (.polling .beginning true)
        actions).source.cursor = .at 2 ∧
      ¬ ExactlyOnce (.polling .beginning true) [.parse "/a"] ∅ actions) ∧
    ((init .pushHook [.parse "/a"] ∅).run .pushHook actions).source.cursor = .at 2 ∧
      ¬ ExactlyOnce .pushHook [.parse "/a"] ∅ actions := by
  refine ⟨⟨by decide +kernel, ?_⟩, by decide +kernel, ?_⟩
  · apply not_exactlyOnce_of_missed disturbedRound (List.replicate 4 .ingest) 2
    · exact eq_waiting (by decide +kernel)
    · exact eq_waiting (by decide +kernel)
    · decide +kernel
    · decide
    · decide +kernel
  · apply not_exactlyOnce_of_missed disturbedRound (List.replicate 4 .ingest) 2
    · exact eq_waiting (by decide +kernel)
    · exact eq_waiting (by decide +kernel)
    · decide +kernel
    · decide
    · decide +kernel

end IngestRun

end AtomrOntology
