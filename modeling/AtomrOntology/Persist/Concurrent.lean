import AtomrOntology.Persist.Durable

/-!
# Concurrent commits

Calls of `commit_with_provenance` on clones of one store share its state and its medium.
Each applies its delta and takes a snapshot under the lock, releases it, and saves the
snapshot later as one atomic write. Between the two, other calls may apply and save.
-/

namespace AtomrOntology

/-- A call that has released the lock: what it committed, the snapshot it took, and
whether its save is done. -/
structure CommitCall where
  delta : OntologyDelta
  activity : Activity
  snapshot : Snapshot
  returned : Bool

/-- Apply commits one after another. -/
def PersistentState.commits (start : PersistentState) (cs : List (OntologyDelta × Activity)) :
    PersistentState :=
  cs.foldl (fun p c => p.commit c.1 c.2) start

/-- One atomic step of one of the calls. -/
inductive CommitEvent where
  | apply (delta : OntologyDelta) (activity : Activity)
  | save (call : Nat)

/-- The shared state, the medium, and the calls in the order they applied. -/
structure CommitSystem (c : Checkpointer) where
  store : PersistentState
  medium : c.Medium
  calls : List CommitCall

namespace CommitSystem

variable {c : Checkpointer}

/-- No call has started. -/
def start (p : PersistentState) (m : c.Medium) : CommitSystem c := ⟨p, m, []⟩

def step (s : CommitSystem c) : CommitEvent → Option (CommitSystem c)
  | .apply delta activity =>
    let store := s.store.commit delta activity
    some { s with store, calls := s.calls ++ [⟨delta, activity, store.snapshot, false⟩] }
  | .save i =>
    match s.calls[i]? with
    | none => none
    | some call =>
      if call.returned then none
      else some { s with medium := c.save call.snapshot s.medium,
                         calls := s.calls.set i { call with returned := true } }

/-- States that steps meeting a condition lead to. -/
inductive Reaches (allowed : CommitSystem c → CommitEvent → Prop) (init : CommitSystem c) :
    CommitSystem c → Prop
  | refl : Reaches allowed init init
  | snoc {s t : CommitSystem c} {e : CommitEvent} : Reaches allowed init s → allowed s e →
      s.step e = some t → Reaches allowed init t

/-- At least one call was made, and every call has returned. -/
structure Quiescent (s : CommitSystem c) : Prop where
  called : s.calls ≠ []
  returned : ∀ call ∈ s.calls, call.returned

/-- The commits whose calls have returned, in the order they applied. -/
def acknowledged (s : CommitSystem c) : List (OntologyDelta × Activity) :=
  (s.calls.filter CommitCall.returned).map fun call => (call.delta, call.activity)

/-- The durable copy has the version of the store and the effects of every acknowledged
commit. -/
def NothingLost (p : PersistentState) (s : CommitSystem c) : Prop :=
  ∃ t, c.load s.medium = .ok (some t) ∧ t.version = s.store.version ∧
    t.ontology = (p.commits s.acknowledged).ontology ∧
    t.provenance = (p.commits s.acknowledged).provenance

/-- A step leaves no call in flight only by saving the snapshot that was taken last, and
only when the medium can restore it. -/
def ClosesWithLast (restorable : Snapshot → Prop) (s : CommitSystem c) : CommitEvent → Prop
  | .apply _ _ => True
  | .save i => (∀ j call, s.calls[j]? = some call → j ≠ i → call.returned) →
      i + 1 = s.calls.length ∧ restorable s.store.snapshot

/-- A call with nothing in between is the sequential commit. -/
theorem step_apply_save (s : CommitSystem c) (delta : OntologyDelta) (activity : Activity) :
    ((s.step (.apply delta activity)).bind fun t => t.step (.save s.calls.length)).map
        (fun t => (t.store, t.medium)) =
      let done := (PersistentStore.commitWithProvenance ⟨s.store, s.medium⟩ delta activity).2
      some (done.state, done.medium) := by
  simp [step, PersistentStore.commitWithProvenance]

/-- What a save step does. -/
theorem step_save {s t : CommitSystem c} {i : Nat} (h : s.step (.save i) = some t) :
    ∃ call, s.calls[i]? = some call ∧ t = ⟨s.store, c.save call.snapshot s.medium,
      s.calls.set i { call with returned := true }⟩ := by
  simp only [step] at h
  cases hcall : s.calls[i]? with
  | none => simp [hcall] at h
  | some call =>
    cases hret : call.returned with
    | true => simp [hcall, hret] at h
    | false =>
      simp only [hcall, hret] at h
      exact ⟨call, rfl, (Option.some.inj h).symm⟩

/-- What holds of every state that is reached: the store has applied every call's commit
in order, the last call's snapshot is of the store, and the durable copy is the store's
whenever no call is in flight. -/
structure Inv (p : PersistentState) (s : CommitSystem c) : Prop where
  store : s.store = p.commits (s.calls.map fun call => (call.delta, call.activity))
  last : ∀ call, s.calls[s.calls.length - 1]? = some call → call.snapshot = s.store.snapshot
  durable : s.Quiescent → c.load s.medium = .ok (some s.store.snapshot)

theorem Inv.start (p : PersistentState) (m : c.Medium) : Inv p (CommitSystem.start p m) :=
  ⟨rfl, fun _ h => by simp [CommitSystem.start] at h, fun h => absurd rfl h.called⟩

theorem Inv.apply {p : PersistentState} {s : CommitSystem c} (h : Inv p s)
    (delta : OntologyDelta) (activity : Activity) :
    Inv p ⟨s.store.commit delta activity, s.medium,
      s.calls ++ [⟨delta, activity, (s.store.commit delta activity).snapshot, false⟩]⟩ := by
  refine ⟨?_, ?_, ?_⟩
  · simp [h.store, PersistentState.commits, List.foldl_append]
  · intro call hcall
    rw [List.length_append, List.length_singleton, Nat.add_sub_cancel,
      List.getElem?_concat_length, Option.some.injEq] at hcall
    rw [← hcall]
  · intro hq
    have hret := hq.returned _ (List.mem_append_right _ List.mem_cons_self)
    exact absurd hret (by simp)

theorem Inv.save {p : PersistentState} {s : CommitSystem c} {restorable : Snapshot → Prop}
    (h : Inv p s) {i : Nat} {call : CommitCall} (hcall : s.calls[i]? = some call)
    (hclose : s.ClosesWithLast restorable (.save i))
    (hload : restorable s.store.snapshot →
      c.load (c.save s.store.snapshot s.medium) = .ok (some s.store.snapshot)) :
    Inv p ⟨s.store, c.save call.snapshot s.medium,
      s.calls.set i { call with returned := true }⟩ := by
  have hi : i < s.calls.length := (List.getElem?_eq_some_iff.mp hcall).1
  refine ⟨?_, ?_, ?_⟩
  · refine h.store.trans (congrArg p.commits (List.ext_getElem? fun j => ?_))
    rw [List.getElem?_map, List.getElem?_map, List.getElem?_set]
    by_cases hj : i = j
    · rw [if_pos hj, if_pos hi, ← hj, hcall]
      rfl
    · rw [if_neg hj]
  · intro last hlast
    rw [List.length_set, List.getElem?_set] at hlast
    by_cases hl : i = s.calls.length - 1
    · rw [if_pos hl, if_pos (hl ▸ hi), Option.some.injEq] at hlast
      rw [← hlast]
      exact h.last call (hl ▸ hcall)
    · rw [if_neg hl] at hlast
      exact h.last last hlast
  · intro hq
    -- every other call had returned, so this save closes with the last snapshot
    have hothers : ∀ j other, s.calls[j]? = some other → j ≠ i → other.returned := by
      intro j other hother hj
      refine hq.returned other (List.mem_of_getElem? (i := j) ?_)
      rw [List.getElem?_set_ne (Ne.symm hj)]
      exact hother
    obtain ⟨hlast, hrestorable⟩ := hclose hothers
    have hsnapshot : call.snapshot = s.store.snapshot := h.last call (by rw [← hlast]; exact hcall)
    rw [hsnapshot]
    exact hload hrestorable

theorem Inv.step {p : PersistentState} {s t : CommitSystem c} {restorable : Snapshot → Prop}
    {e : CommitEvent} (h : Inv p s) (hclose : s.ClosesWithLast restorable e)
    (hload : restorable s.store.snapshot →
      c.load (c.save s.store.snapshot s.medium) = .ok (some s.store.snapshot))
    (hstep : s.step e = some t) : Inv p t := by
  cases e with
  | apply delta activity =>
    obtain rfl := Option.some.inj hstep
    exact h.apply delta activity
  | save i =>
    obtain ⟨call, hcall, rfl⟩ := step_save hstep
    exact h.save hcall hclose hload

end CommitSystem

/-- Commits keep a state built. -/
theorem PersistentState.built_commits {p : PersistentState} (h : p.snapshot.Built)
    (cs : List (OntologyDelta × Activity)) : (p.commits cs).snapshot.Built := by
  induction cs generalizing p with
  | nil => exact h
  | cons c cs ih =>
    exact ih ⟨h.ontology.applyDelta c.1 c.2.id, h.provenance.recordActivity c.2⟩

namespace CommitSystem

variable {c : Checkpointer}

/-- The invariant holds of every state that allowed steps lead to. -/
theorem Reaches.inv {p : PersistentState} {m : c.Medium} {restorable : Snapshot → Prop}
    (hload : ∀ s m, s.Built → restorable s → c.load (c.save s m) = .ok (some s))
    (hp : p.snapshot.Built) {s : CommitSystem c}
    (h : Reaches (ClosesWithLast restorable) (start p m) s) : Inv p s := by
  induction h with
  | refl => exact .start p m
  | @snoc s t e _ hclose hstep ih =>
    refine ih.step hclose (fun hr => hload _ _ ?_ hr) hstep
    rw [ih.store]
    exact PersistentState.built_commits hp _

/-- Where the invariant holds, nothing is lost once every call has returned. -/
theorem Inv.nothingLost {p : PersistentState} {s : CommitSystem c} (h : Inv p s)
    (hq : s.Quiescent) : s.NothingLost p := by
  have hall : s.acknowledged = s.calls.map fun call => (call.delta, call.activity) := by
    rw [acknowledged, List.filter_eq_self.mpr hq.returned]
  refine ⟨s.store.snapshot, h.durable hq, rfl, ?_, ?_⟩
  · rw [hall, ← h.store]
    rfl
  · rw [hall, ← h.store]
    rfl

/-- However calls interleave, while every save that leaves no call in flight is of the
snapshot taken last, nothing is lost: on any restorable snapshot through the file, on any
snapshot through memory. -/
theorem nothingLost_of_closesWithLast [SerdeJson] [Chrono] {p : PersistentState}
    (hp : p.snapshot.Built) :
    (∀ (m : memCheckpointer.Medium) (s : CommitSystem memCheckpointer),
      Reaches (ClosesWithLast fun _ => True) (start p m) s → s.Quiescent → s.NothingLost p) ∧
    ∀ (path : String) (m : (fileCheckpointer path).Medium)
      (s : CommitSystem (fileCheckpointer path)),
      Reaches (ClosesWithLast Snapshot.Restorable) (start p m) s → s.Quiescent →
        s.NothingLost p := by
  constructor
  · intro m s h hq
    exact (h.inv (fun _ _ _ _ => rfl) hp).nothingLost hq
  · intro path m s h hq
    exact (h.inv (fun _ _ hb hr => file_load_save.mpr (hb.keyed.read_self.mpr hr)) hp).nothingLost
      hq

private def noChange : OntologyDelta := ⟨[], [], []⟩

private def ingestion (k : UInt8) : Activity :=
  ⟨⟨Vector.replicate 32 k⟩, "ingestion", .epoch, none, none, ∅⟩

/-- The first call's state. -/
private def first : PersistentState := PersistentState.empty.commit noChange (ingestion 1)

/-- The state after both calls applied. -/
private def second : PersistentState := first.commit noChange (ingestion 2)

/-- Both calls are in flight. -/
private def bothApplied : CommitSystem memCheckpointer :=
  ⟨second, none, [⟨noChange, ingestion 1, first.snapshot, false⟩,
    ⟨noChange, ingestion 2, second.snapshot, false⟩]⟩

/-- One snapshot is on the medium, and some calls have returned. -/
private def saved (s : Snapshot) (a b : Bool) : CommitSystem memCheckpointer :=
  ⟨second, some s, [⟨noChange, ingestion 1, first.snapshot, a⟩,
    ⟨noChange, ingestion 2, second.snapshot, b⟩]⟩

private theorem reaches_bothApplied {allowed : CommitSystem memCheckpointer → CommitEvent → Prop}
    (h : ∀ s delta activity, allowed s (.apply delta activity)) :
    Reaches allowed (start .empty none) bothApplied :=
  (Reaches.refl.snoc (h _ noChange (ingestion 1)) rfl).snoc (h _ noChange (ingestion 2)) rfl

/-- Two calls through memory whose saves come in the other order: both return, and the
durable copy is the one the first call took. -/
theorem reordered_saves_lose_a_commit :
    ∃ s : CommitSystem memCheckpointer, Reaches (fun _ _ => True) (start .empty none) s ∧
      s.Quiescent ∧ ¬s.NothingLost .empty := by
  refine ⟨saved first.snapshot true true, ?_, ⟨by simp [saved], by simp [saved]⟩, ?_⟩
  · have happlied : Reaches (fun _ _ => True) (start .empty none) bothApplied :=
      reaches_bothApplied fun _ _ _ => trivial
    have hlater :
      Reaches (fun _ _ => True) (start .empty none) (saved second.snapshot false true) :=
      happlied.snoc (e := .save 1) trivial rfl
    exact hlater.snoc (e := .save 0) trivial rfl
  · intro h
    obtain ⟨t, hload, hversion, -⟩ := h
    have ht : first.snapshot = t := Option.some.inj (Except.ok.inj hload)
    rw [← ht] at hversion
    exact absurd hversion (by decide)

/-- Saves in the order of the commits lose nothing. -/
theorem nothingLost_of_closesWithLast_in_order :
    (saved second.snapshot true true).NothingLost .empty := by
  let _ := SerdeJson.plain
  let _ := Chrono.plain
  have hbuilt : PersistentState.empty.snapshot.Built := ⟨.bare _ _ _, .empty⟩
  have happlied : Reaches (ClosesWithLast fun _ => True) (start .empty none) bothApplied :=
    reaches_bothApplied fun _ _ _ => trivial
  have hearlier : Reaches (ClosesWithLast fun _ => True) (start .empty none)
      (saved first.snapshot true false) := by
    refine happlied.snoc (e := .save 0) (fun h => ?_) rfl
    exact absurd (h 1 _ rfl (by decide)) (by decide)
  have hlater : Reaches (ClosesWithLast fun _ => True) (start .empty none)
      (saved second.snapshot true true) :=
    hearlier.snoc (e := .save 1) (fun _ => ⟨rfl, trivial⟩) rfl
  exact (nothingLost_of_closesWithLast hbuilt).1 none _ hlater
    ⟨by simp [saved], by simp [saved]⟩

end CommitSystem

end AtomrOntology
