import AtomrOntology.Actor.SnapshotSource

/-!
# Does a snapshot source deliver every event once?

A consumer asks for the events after its cursor and takes the cursor of the same snapshot
as the next one. Whenever the version has grown it is given every event node again, with
new numbers.
-/

namespace AtomrOntology

namespace SnapshotSource

/-- What a poll finds upstream, and the clock while it reads. -/
structure Poll where
  snap : Option Snapshot
  now : Node → DateTime

/-- What a poll has done. -/
structure PollRecord where
  since : Cursor
  delivered : List (Node × JournalEvent)
  next : Cursor

/-- Each poll asks for the journal and keeps the cursor for the next poll. -/
def consume : Cursor → List Poll → List PollRecord
  | _, [] => []
  | since, poll :: rest =>
    let next := .at (versionOf poll.snap)
    ⟨since, deliveries poll.now poll.snap since, next⟩ :: consume next rest

/-- A later load: the same snapshot, or one of a higher version that has every event node
of the earlier one. -/
def Follows : Option Snapshot → Option Snapshot → Prop
  | none, _ => True
  | some _, none => False
  | some s, some t => s = t ∨ s.version < t.version ∧ eventNodes s ⊆ eventNodes t

/-- Versions grow from one on and event nodes are only added. -/
structure Upstream (polls : List Poll) : Prop where
  grows : (polls.map Poll.snap).Pairwise Follows
  positive : ∀ p ∈ polls, ∀ s, p.snap = some s → 0 < s.version

/-- The contract of the journal, for a consumer that starts at the beginning. -/
structure JournalContract (polls : List Poll) : Prop where
  once : ∀ p s, polls.getLast? = some p → p.snap = some s → ∀ n ∈ eventNodes s,
    ∃! i : Nat, ∃ r, (consume .beginning polls)[i]? = some r ∧ n ∈ r.delivered.map Prod.fst
  numbered : ∀ r ∈ consume .beginning polls, ∀ d ∈ r.delivered,
    r.since.version < d.2.cursor.version ∧ d.2.cursor.version ≤ r.next.version

/-- The cursor a poll asks with: the version of the poll before it. -/
def sinceAt (since : Cursor) (polls : List Poll) : Nat → Cursor
  | 0 => since
  | i + 1 => .at (versionOf (polls[i]?.bind Poll.snap))

/-- The poll found a version newer than its cursor. -/
def New (polls : List Poll) (i : Nat) (s : Snapshot) : Prop :=
  polls[i]?.bind Poll.snap = some s ∧ (sinceAt .beginning polls i).version < s.version

/-- A snapshot with event nodes is not followed by a newer one. -/
def NoneNewer (polls : List Poll) : Prop :=
  ∀ (i j : Nat) (s t : Snapshot), polls[i]?.bind Poll.snap = some s →
    polls[j]?.bind Poll.snap = some t → i < j → s.version < t.version → eventNodes s = []

/-- The event nodes of a new snapshot are at most as many as its version is ahead of the
cursor, unless that is the last version. -/
def FitsVersions (polls : List Poll) : Prop :=
  ∀ (i : Nat) (s : Snapshot), New polls i s →
    (sinceAt .beginning polls i).version.toNat + (eventNodes s).length ≤ s.version.toNat ∨
      s.version.toNat = 2 ^ 64 - 1

/-- The record of a poll. -/
theorem getElem?_consume (since : Cursor) (polls : List Poll) (i : Nat) :
    (consume since polls)[i]? = polls[i]?.map fun p =>
      ⟨sinceAt since polls i, deliveries p.now p.snap (sinceAt since polls i),
        .at (versionOf p.snap)⟩ := by
  induction polls generalizing since i with
  | nil => simp [consume]
  | cons poll rest ih =>
    cases i with
    | zero => rfl
    | succ i =>
      rw [consume, List.getElem?_cons_succ, ih, List.getElem?_cons_succ]
      cases i with
      | zero => rfl
      | succ i => rfl

/-- A newer snapshot is delivered with all its event nodes. -/
theorem map_fst_deliveries {now : Node → DateTime} {s : Snapshot} {since : Cursor}
    (h : since.version < s.version) :
    (deliveries now (some s) since).map Prod.fst = eventNodes s := by
  rw [deliveries, if_neg (UInt64.not_le.mpr h), map_fst_numberEvents, eventNodes]

/-- What a poll delivers: the event nodes of its snapshot if that is new. -/
theorem mem_delivered_iff {polls : List Poll} {i : Nat} {n : Node} :
    (∃ r, (consume .beginning polls)[i]? = some r ∧ n ∈ r.delivered.map Prod.fst) ↔
      ∃ s, New polls i s ∧ n ∈ eventNodes s := by
  rw [getElem?_consume]
  constructor
  · intro h
    obtain ⟨r, hr, hn⟩ := h
    obtain ⟨p, hp, rfl⟩ := Option.map_eq_some_iff.mp hr
    cases hs : p.snap with
    | none =>
      rw [hs] at hn
      cases hn
    | some s =>
      have hnew : (sinceAt .beginning polls i).version < s.version := by
        by_contra hold
        rw [hs, deliveries, if_pos (UInt64.not_lt.mp hold)] at hn
        cases hn
      rw [hs, map_fst_deliveries hnew] at hn
      exact ⟨s, ⟨by rw [hp, Option.bind_some, hs], hnew⟩, hn⟩
  · intro h
    obtain ⟨s, ⟨hs, hnew⟩, hn⟩ := h
    obtain ⟨p, hp, hps⟩ := Option.bind_eq_some_iff.mp hs
    refine ⟨_, by rw [hp]; rfl, ?_⟩
    simp only [hps, map_fst_deliveries hnew]
    exact hn

/-- Snapshots follow one another in order. -/
theorem Follows.trans {a b c : Option Snapshot} (hab : Follows a b) (hbc : Follows b c) :
    Follows a c := by
  cases a with
  | none => trivial
  | some s =>
    cases b with
    | none => cases hab
    | some t =>
      cases c with
      | none => cases hbc
      | some u =>
        rcases hab with rfl | ⟨hst, hsub⟩
        · exact hbc
        · rcases hbc with rfl | ⟨htu, hsub'⟩
          · exact Or.inr ⟨hst, hsub⟩
          · exact Or.inr ⟨UInt64.lt_trans hst htu, List.Subset.trans hsub hsub'⟩

variable {polls : List Poll}

/-- Later polls find the same snapshot or a newer one. -/
theorem Upstream.follows (h : Upstream polls) {i j : Nat} (hij : i < j) {s : Snapshot}
    (hs : polls[i]?.bind Poll.snap = some s) (hj : j < polls.length) :
    ∃ t, polls[j]?.bind Poll.snap = some t ∧
      (s = t ∨ s.version < t.version ∧ eventNodes s ⊆ eventNodes t) := by
  have hpair := List.pairwise_iff_getElem.mp h.grows i j (by rw [List.length_map]; omega)
    (by rw [List.length_map]; exact hj) hij
  obtain ⟨p, hp, hps⟩ := Option.bind_eq_some_iff.mp hs
  obtain ⟨hi, rfl⟩ := List.getElem?_eq_some_iff.mp hp
  rw [List.getElem_map, List.getElem_map, hps] at hpair
  rw [List.getElem?_eq_getElem hj, Option.bind_some]
  cases ht : polls[j].snap with
  | none =>
    rw [ht] at hpair
    cases hpair
  | some t =>
    rw [ht] at hpair
    exact ⟨t, rfl, hpair⟩

/-- A snapshot is found by one of the polls. -/
theorem lt_length_of_bind {i : Nat} {s : Snapshot} (h : polls[i]?.bind Poll.snap = some s) :
    i < polls.length := by
  obtain ⟨p, hp, -⟩ := Option.bind_eq_some_iff.mp h
  exact (List.getElem?_eq_some_iff.mp hp).1

/-- A snapshot that was polled was new when it was polled first. -/
theorem Upstream.exists_new (h : Upstream polls) {i : Nat} {s : Snapshot}
    (hs : polls[i]?.bind Poll.snap = some s) : ∃ k ≤ i, New polls k s := by
  induction i with
  | zero =>
    obtain ⟨p, hp, hps⟩ := Option.bind_eq_some_iff.mp hs
    exact ⟨0, le_rfl, hs, h.positive p (List.mem_of_getElem? hp) s hps⟩
  | succ i ih =>
    obtain ⟨p, hp, hps⟩ := Option.bind_eq_some_iff.mp hs
    have hpos := h.positive p (List.mem_of_getElem? hp) s hps
    cases ht : polls[i]?.bind Poll.snap with
    | none => exact ⟨i + 1, le_rfl, hs, by rw [sinceAt, ht]; exact hpos⟩
    | some t =>
      obtain ⟨u, hu, hstep⟩ := h.follows (Nat.lt_succ_self i) ht (lt_length_of_bind hs)
      rw [hs] at hu
      cases hu
      rcases hstep with rfl | ⟨hlt, -⟩
      · obtain ⟨k, hk, hnew⟩ := ih ht
        exact ⟨k, by omega, hnew⟩
      · exact ⟨i + 1, le_rfl, hs, by rw [sinceAt, ht]; exact hlt⟩

/-- A new snapshot is newer than every one polled before it. -/
theorem Upstream.version_lt_of_new (h : Upstream polls) {i j : Nat} {s t : Snapshot}
    (hs : polls[i]?.bind Poll.snap = some s) (ht : New polls j t) (hij : i < j) :
    s.version < t.version := by
  obtain ⟨htj, hnew⟩ := ht
  cases j with
  | zero => omega
  | succ j =>
    have hle : ∃ u, polls[j]?.bind Poll.snap = some u ∧ s.version ≤ u.version := by
      by_cases heq : i = j
      · exact ⟨s, heq ▸ hs, UInt64.le_refl _⟩
      · have hjlen := lt_length_of_bind htj
        obtain ⟨u, hu, hstep⟩ := h.follows (by omega : i < j) hs (by omega)
        refine ⟨u, hu, ?_⟩
        rcases hstep with rfl | ⟨hlt, -⟩
        · exact UInt64.le_refl _
        · exact UInt64.le_of_lt hlt
    obtain ⟨u, hu, hsu⟩ := hle
    simp only [sinceAt, hu] at hnew
    exact UInt64.lt_of_le_of_lt hsu hnew

/-- Under the contract no snapshot with events is followed by a newer one. -/
theorem JournalContract.noneNewer (hup : Upstream polls) (h : JournalContract polls) :
    NoneNewer polls := by
  intro i j s t hs ht hij hlt
  by_contra hne
  obtain ⟨n, hn⟩ := List.exists_mem_of_ne_nil _ hne
  have hij' := hup.follows hij hs (lt_length_of_bind ht)
  have hnt : n ∈ eventNodes t := by
    obtain ⟨u, hu, hstep⟩ := hij'
    rw [ht] at hu
    cases hu
    rcases hstep with rfl | ⟨-, hsub⟩
    · exact absurd hlt (UInt64.lt_irrefl _)
    · exact hsub hn
  -- the node is still there at the last poll
  have hlast : ∃ p u, polls.getLast? = some p ∧ p.snap = some u ∧ n ∈ eventNodes u := by
    have hjlen := lt_length_of_bind ht
    have hu : ∃ u, polls[polls.length - 1]?.bind Poll.snap = some u ∧ n ∈ eventNodes u := by
      by_cases heq : j = polls.length - 1
      · exact ⟨t, heq ▸ ht, hnt⟩
      · obtain ⟨u, hu, hstep⟩ := hup.follows (by omega : j < polls.length - 1) ht (by omega)
        rcases hstep with rfl | ⟨-, hsub⟩
        · exact ⟨t, hu, hnt⟩
        · exact ⟨u, hu, hsub hnt⟩
    obtain ⟨u, hu, hnu⟩ := hu
    obtain ⟨p, hp, hpu⟩ := Option.bind_eq_some_iff.mp hu
    exact ⟨p, u, by rw [List.getLast?_eq_getElem?, hp], hpu, hnu⟩
  obtain ⟨p, u, hp, hpu, hnu⟩ := hlast
  obtain ⟨k, -, hk⟩ := h.once p u hp hpu n hnu
  obtain ⟨a, -, ha⟩ := hup.exists_new hs
  obtain ⟨b, -, hb⟩ := hup.exists_new ht
  have hak := hk a (mem_delivered_iff.mpr ⟨s, ha, hn⟩)
  have hbk := hk b (mem_delivered_iff.mpr ⟨t, hb, hnt⟩)
  have hst : some s = some t := by rw [← ha.1, ← hb.1, hak, hbk]
  cases hst
  exact UInt64.lt_irrefl _ hlt

/-- If none is, every event is delivered once. -/
theorem NoneNewer.once (hup : Upstream polls) (h : NoneNewer polls) {p : Poll} {s : Snapshot}
    (hp : polls.getLast? = some p) (hs : p.snap = some s) {n : Node} (hn : n ∈ eventNodes s) :
    ∃! i : Nat, ∃ r, (consume .beginning polls)[i]? = some r ∧ n ∈ r.delivered.map Prod.fst := by
  have hlast : polls[polls.length - 1]?.bind Poll.snap = some s := by
    rw [← List.getLast?_eq_getElem?, hp, Option.bind_some, hs]
  obtain ⟨k, -, hk⟩ := hup.exists_new hlast
  refine ⟨k, mem_delivered_iff.mpr ⟨s, hk, hn⟩, ?_⟩
  intro i hi
  obtain ⟨t, ht, hnt⟩ := mem_delivered_iff.mp hi
  rcases Nat.lt_trichotomy i k with hlt | heq | hgt
  · have hnil := h i k t s ht.1 hk.1 hlt (hup.version_lt_of_new ht.1 hk hlt)
    rw [hnil] at hnt
    cases hnt
  · exact heq
  · have hnil := h k i s t hk.1 ht.1 hgt (hup.version_lt_of_new hk.1 ht hgt)
    rw [hnil] at hn
    cases hn

/-- A new snapshot is numbered from the cursor on. -/
theorem length_numberEvents {now : Node → DateTime} {s : Snapshot} {since : Cursor} :
    (numberEvents now since.version s.ontology.nodes.vals).length = (eventNodes s).length := by
  rw [eventNodes, ← @map_fst_numberEvents now since.version, List.length_map]

/-- Numbers stay between the cursors if there are as many versions as events. -/
theorem numbered_iff_fitsVersions :
    (∀ r ∈ consume .beginning polls, ∀ d ∈ r.delivered,
      r.since.version < d.2.cursor.version ∧ d.2.cursor.version ≤ r.next.version) ↔
    FitsVersions polls := by
  constructor
  · intro h i s hnew
    obtain ⟨hs, hlt⟩ := hnew
    obtain ⟨p, hp, hps⟩ := Option.bind_eq_some_iff.mp hs
    have hr := h _ (List.mem_of_getElem? (by rw [getElem?_consume, hp]; rfl))
    simp only [hps, deliveries, if_neg (UInt64.not_le.mpr hlt)] at hr
    rw [UInt64.lt_iff_toNat_lt] at hlt
    by_cases hnil : numberEvents p.now (sinceAt .beginning polls i).version
        s.ontology.nodes.vals = []
    · left
      rw [← @length_numberEvents p.now s (sinceAt .beginning polls i), hnil]
      exact Nat.le_of_lt hlt
    · obtain ⟨d, hd, hv⟩ := exists_version_numberEvents hnil
      have hle := UInt64.le_iff_toNat_le.mp (hr d hd).2
      rw [hv, length_numberEvents] at hle
      have hmax := s.version.toNat_lt
      simp only [Cursor.at, versionOf, Option.map_some, Option.getD_some] at hle
      omega
  · intro h r hr d hd
    obtain ⟨i, hi⟩ := List.mem_iff_getElem?.mp hr
    rw [getElem?_consume] at hi
    obtain ⟨p, hp, rfl⟩ := Option.map_eq_some_iff.mp hi
    cases hps : p.snap with
    | none =>
      simp only [hps] at hd
      cases hd
    | some s =>
      by_cases hlt : (sinceAt .beginning polls i).version < s.version
      · have hfits := h i s ⟨by rw [hp, Option.bind_some, hps], hlt⟩
        simp only [hps, deliveries, if_neg (UInt64.not_le.mpr hlt)] at hd ⊢
        obtain ⟨hlow, hhigh⟩ := version_numberEvents hd
        rw [length_numberEvents] at hhigh
        rw [UInt64.lt_iff_toNat_lt] at hlt
        have hmax := s.version.toNat_lt
        rw [UInt64.lt_iff_toNat_lt, UInt64.le_iff_toNat_le]
        simp only [Cursor.at, versionOf, Option.map_some, Option.getD_some]
        omega
      · simp only [hps, deliveries, if_pos (UInt64.not_lt.mp hlt)] at hd
        cases hd

/-- The contract of the journal holds exactly when no snapshot with event nodes is followed
by a newer one and the versions leave room for the numbers of the event nodes. -/
theorem journalContract_iff (polls : List Poll) (hup : Upstream polls) :
    JournalContract polls ↔ NoneNewer polls ∧ FitsVersions polls := by
  constructor
  · intro h
    exact ⟨h.noneNewer hup, numbered_iff_fitsVersions.mp h.numbered⟩
  · intro h
    exact ⟨fun p s hp hs n hn => h.1.once hup hp hs hn, numbered_iff_fitsVersions.mpr h.2⟩

/-- A record that is read as an event. -/
def eventRecord (b : UInt8) : Node :=
  ⟨Id.filled b, none, ["ActorRecord"], (∅ : BTreeMap String PropertyValue).insert "event_kind"
    (.string "created")⟩

/-- A poll of a snapshot with the given records, at a version. -/
def pollOf (nodes : List Node) (version : UInt64) : Poll :=
  ⟨some ⟨nodes.foldl Ontology.upsertNode .empty, .empty, version⟩, fun _ => .epoch⟩

private theorem length_eventNodes_one :
    (eventNodes ⟨[eventRecord 1].foldl Ontology.upsertNode .empty, .empty, 1⟩).length = 1 := by
  decide +kernel

private theorem length_eventNodes_two :
    (eventNodes ⟨[eventRecord 1, eventRecord 2].foldl Ontology.upsertNode .empty, .empty,
      1⟩).length = 2 := by
  decide +kernel

/-- Nothing at first, then two events in version 2, and then the same snapshot again. -/
private def onePublication : List Poll :=
  [⟨none, fun _ => .epoch⟩, pollOf [eventRecord 1, eventRecord 2] 2,
    pollOf [eventRecord 1, eventRecord 2] 2]

private theorem version_onePublication {i : Nat} {s : Snapshot}
    (h : onePublication[i]?.bind Poll.snap = some s) : s.version = 2 := by
  match i, h with
  | 1, h => exact Option.some.inj h ▸ rfl
  | 2, h => exact Option.some.inj h ▸ rfl

/-- A snapshot that is polled twice is delivered once. -/
theorem journalContract_onePublication : JournalContract onePublication := by
  apply (journalContract_iff _ ?_).mpr
  · constructor
    · intro i j s t hs ht _ hlt
      rw [version_onePublication hs, version_onePublication ht] at hlt
      exact absurd hlt (by decide)
    · intro i s hnew
      match i, hnew with
      | 1, hnew =>
        obtain rfl := Option.some.inj hnew.1
        left
        decide +kernel
      | 2, hnew =>
        obtain ⟨hs, hlt⟩ := hnew
        rw [version_onePublication hs] at hlt
        exact absurd hlt (by decide +kernel)
  · constructor
    · exact List.Pairwise.cons (fun _ _ => trivial) (List.pairwise_pair.mpr (Or.inl rfl))
    · intro p hp s hs
      obtain ⟨i, hi⟩ := List.mem_iff_getElem?.mp hp
      rw [version_onePublication (by rw [hi]; exact hs)]
      decide

/-- An event node is delivered again with every newer snapshot, and two event nodes of
version 1 are numbered beyond the cursor that follows. -/
theorem event_is_delivered_twice :
    (Upstream [pollOf [eventRecord 1] 1, pollOf [eventRecord 1] 2] ∧
      ¬ JournalContract [pollOf [eventRecord 1] 1, pollOf [eventRecord 1] 2]) ∧
    Upstream [pollOf [eventRecord 1, eventRecord 2] 1] ∧
      ¬ JournalContract [pollOf [eventRecord 1, eventRecord 2] 1] := by
  have hup : Upstream [pollOf [eventRecord 1] 1, pollOf [eventRecord 1] 2] := by
    refine ⟨List.pairwise_pair.mpr (Or.inr ⟨by decide, List.Subset.refl _⟩), ?_⟩
    intro p hp s hs
    rcases List.mem_pair.mp hp with rfl | rfl
    · cases hs
      decide
    · cases hs
      decide
  refine ⟨⟨hup, ?_⟩, ⟨List.pairwise_singleton _ _, ?_⟩, ?_⟩
  · intro h
    have hnil := h.noneNewer hup 0 1 _ _ rfl rfl (by decide) (by decide)
    have hlen := length_eventNodes_one
    rw [hnil] at hlen
    cases hlen
  · intro p hp s hs
    cases List.mem_singleton.mp hp
    cases hs
    decide
  · intro h
    have hfits := numbered_iff_fitsVersions.mp h.numbered 0 _ ⟨rfl, by decide⟩
    rw [length_eventNodes_two] at hfits
    exact absurd hfits (by decide)

end SnapshotSource

end AtomrOntology
