import AtomrOntology.Version.Store

/-!
# Is history immutable?

Storing a commit overwrites whatever is stored under its id. As long as the digest has
no collision, that loses a revision exactly when an earlier commit with the same
parent and hashed message is hashed alike without being the same revision, and two
snapshots are hashed alike as soon as both hold a node, an edge or an axiom.
-/

namespace AtomrOntology

namespace VersionedStore

section Runs

variable [Blake3] [SerdeJson]

/-- The bytes a stored commit's id is the digest of. -/
def hashInput (c : Commit) : List UInt8 :=
  computeIdInput c.parent (hashedMessage c.secondParent c.message) c.snapshot

/-- The inputs whose digests a run uses as commit ids. -/
def hashInputsFrom (s : VersionedStore) : List Call → List (List UInt8)
  | [] => []
  | call :: calls => (s.built call).toList.map hashInput ++ hashInputsFrom (s.step call).2 calls

/-- The digest tells the inputs of a run apart. -/
def NoCollisions (calls : List Call) : Prop :=
  ∀ x ∈ hashInputsFrom init calls, ∀ y ∈ hashInputsFrom init calls,
    Blake3.deriveKey commitContext x = Blake3.deriveKey commitContext y → x = y

/-- Some call of the run returned `id`, and `c` is the commit then found under it. -/
def Recorded (calls : List Call) (id : CommitId) (c : Commit) : Prop :=
  ∃ pre call post, calls = pre ++ call :: post ∧ ((run pre).step call).1 = .ok (some id) ∧
    (run (pre ++ [call])).commitAt id = some c

/-- Two commits are the same revision: snapshot and parents agree. -/
structure SameRevision (c d : Commit) : Prop where
  snapshot : c.snapshot = d.snapshot
  parent : c.parent = d.parent
  secondParent : c.secondParent = d.secondParent

/-- Every revision a call recorded is still what reading its id back returns. -/
def Immutable (calls : List Call) : Prop :=
  ∀ id c, Recorded calls id c → (run calls).asOf id = some c.snapshot ∧
    ∃ d, (run calls).commitAt id = some d ∧ SameRevision d c

/-- No stored commit is hashed like the given revision without being that revision. -/
def Fresh (s : VersionedStore) (parent secondParent : Option CommitId) (message : String)
    (snapshot : Ontology) : Prop :=
  ∀ old ∈ s.commits.vals, parentBytes old.parent = parentBytes parent →
    hashedMessage old.secondParent old.message = hashedMessage secondParent message →
    SameText old.snapshot snapshot →
      old.snapshot = snapshot ∧ old.parent = parent ∧ old.secondParent = secondParent

/-- The revision a call is about to store is fresh. -/
def CallOk (s : VersionedStore) : Call → Prop
  | .commit message _ snapshot _ => s.Fresh s.headId none message snapshot
  | .merge other strategy _ => ∀ currentHead otherHead ours theirs,
      s.headId = some currentHead → s.branches[other]? = some otherHead →
      s.commits[currentHead]? = some ours → s.commits[otherHead]? = some theirs →
      currentHead ≠ otherHead →
        s.Fresh (some currentHead) (some otherHead)
          ("merge branch '" ++ other ++ "' into '" ++ s.current ++ "'")
          (mergeSnapshots ours.snapshot theirs.snapshot strategy)
  | _ => True

/-- The condition speaks about the commit the call builds. -/
theorem callOk_iff {s : VersionedStore} {call : Call} :
    s.CallOk call ↔
      ∀ c, s.built call = some c → s.Fresh c.parent c.secondParent c.message c.snapshot := by
  cases call with
  | commit message author snapshot now =>
    constructor
    · rintro h c hc
      obtain rfl := Option.some.inj hc
      exact h
    · intro h
      exact h _ rfl
  | branch name => simp [CallOk, built]
  | checkout name => simp [CallOk, built]
  | merge other strategy now =>
    constructor
    · intro h c hc
      rw [built_merge, newMerge_eq_ok] at hc
      obtain ⟨_, _, _, _, h₁, h₂, h₃, h₄, hne, rfl⟩ := hc
      exact h _ _ _ _ h₁ h₂ h₃ h₄ hne
    · intro h currentHead otherHead ours theirs h₁ h₂ h₃ h₄ hne
      refine h (s.mergeCommit other currentHead otherHead ours.snapshot theirs.snapshot strategy
        now) ?_
      rw [built_merge, newMerge_eq_ok]
      exact ⟨_, _, _, _, h₁, h₂, h₃, h₄, hne, rfl⟩

theorem not_recorded_nil {id : CommitId} {c : Commit} : ¬Recorded [] id c := by
  rintro ⟨pre, call, post, h, -⟩
  simp at h

/-- A record of a run is an earlier one, or made by the last call. -/
theorem recorded_snoc {calls : List Call} {call : Call} {id : CommitId} {c : Commit} :
    Recorded (calls ++ [call]) id c ↔ Recorded calls id c ∨
      ((run calls).built call = some c ∧ c.id = id) := by
  have hlast : (((run calls).step call).1 = .ok (some id) ∧
      (run (calls ++ [call])).commitAt id = some c) ↔
      ((run calls).built call = some c ∧ c.id = id) := by
    rw [run_snoc]
    rcases step_cases (run calls) call with ⟨hb, -, hne⟩ | ⟨d, hb, hr, hs⟩
    · simp [hb, hne]
    · rw [hb, hr, hs]
      simp only [commitAt, append, BTreeMap.get_insert, Except.ok.injEq, Option.some.injEq]
      constructor
      · rintro ⟨rfl, h⟩
        rw [if_pos rfl, Option.some.injEq] at h
        exact ⟨h, by rw [h]⟩
      · rintro ⟨rfl, h⟩
        exact ⟨h, by rw [if_pos h]⟩
  rw [← hlast]
  constructor
  · rintro ⟨pre, d, post, h, hr, hc⟩
    rcases List.eq_nil_or_concat post with rfl | ⟨post, e, rfl⟩
    · obtain ⟨rfl, hd⟩ := List.append_inj' h rfl
      obtain rfl := (List.cons.inj hd).1
      exact Or.inr ⟨hr, hc⟩
    · left
      rw [List.concat_eq_append, ← List.cons_append, ← List.append_assoc] at h
      obtain ⟨rfl, -⟩ := List.append_inj' h rfl
      exact ⟨pre, d, post, rfl, hr, hc⟩
  · rintro (⟨pre, d, post, rfl, hr, hc⟩ | ⟨hr, hc⟩)
    · exact ⟨pre, d, post ++ [call], by simp, hr, hc⟩
    · exact ⟨calls, call, [], rfl, hr, hc⟩

/-- What a call builds is recorded by every run that goes on from it. -/
theorem recorded_built (pre post : List Call) {call : Call} {c : Commit}
    (h : (run pre).built call = some c) : Recorded (pre ++ call :: post) c.id c := by
  induction post using List.reverseRecOn with
  | nil => exact recorded_snoc.mpr (Or.inr ⟨h, rfl⟩)
  | append_singleton post last ih =>
    rw [← List.cons_append, ← List.append_assoc]
    exact recorded_snoc.mpr (Or.inl ih)

/-- A recorded commit's id is the one returned and the digest of its input. -/
theorem Recorded.id_eq {calls : List Call} {id : CommitId} {c : Commit} (h : Recorded calls id c) :
    c.id = id ∧ id.bytes = Blake3.deriveKey commitContext (hashInput c) := by
  induction calls using List.reverseRecOn with
  | nil => exact absurd h not_recorded_nil
  | append_singleton calls call ih =>
    rcases recorded_snoc.mp h with h | ⟨hb, rfl⟩
    · exact ih h
    · exact ⟨rfl, by rw [built_id hb]; rfl⟩

/-- Whatever is stored was recorded. -/
theorem recorded_of_stored {calls : List Call} {id : CommitId} {c : Commit}
    (h : (run calls).commits[id]? = some c) : Recorded calls id c := by
  induction calls using List.reverseRecOn with
  | nil => simp [init] at h
  | append_singleton calls call ih =>
    rw [recorded_snoc]
    rw [run_snoc] at h
    rcases step_cases (run calls) call with ⟨-, hs, -⟩ | ⟨d, hb, -, hs⟩
    · rw [hs] at h
      exact Or.inl (ih h)
    · rw [hs, append, BTreeMap.get_insert] at h
      by_cases hid : d.id = id
      · rw [if_pos hid, Option.some.injEq] at h
        exact Or.inr ⟨h ▸ hb, h ▸ hid⟩
      · rw [if_neg hid] at h
        exact Or.inl (ih h)

theorem hashInputsFrom_append (s : VersionedStore) (calls post : List Call) :
    hashInputsFrom s (calls ++ post) =
      hashInputsFrom s calls ++ hashInputsFrom (calls.foldl (fun s c => (s.step c).2) s) post := by
  induction calls generalizing s with
  | nil => rfl
  | cons call calls ih => simp [hashInputsFrom, ih]

theorem Recorded.hashInput_mem {calls : List Call} {id : CommitId} {c : Commit}
    (h : Recorded calls id c) : hashInput c ∈ hashInputsFrom init calls := by
  induction calls using List.reverseRecOn with
  | nil => exact absurd h not_recorded_nil
  | append_singleton calls call ih =>
    rw [hashInputsFrom_append, List.mem_append]
    rcases recorded_snoc.mp h with h | ⟨hb, -⟩
    · exact Or.inl (ih h)
    · right
      change hashInput c ∈ hashInputsFrom (run calls) [call]
      simp [hashInputsFrom, hb]

theorem NoCollisions.of_append {calls post : List Call} (h : NoCollisions (calls ++ post)) :
    NoCollisions calls := by
  intro x hx y hy
  rw [NoCollisions, hashInputsFrom_append] at h
  exact h x (List.mem_append_left _ hx) y (List.mem_append_left _ hy)

/-- Storing a fresh revision keeps everything recorded so far readable. -/
theorem Immutable.step {calls : List Call} {call : Call} (h : Immutable calls)
    (hn : NoCollisions (calls ++ [call])) (hok : (run calls).CallOk call) :
    Immutable (calls ++ [call]) := by
  intro id c hc
  rcases step_cases (run calls) call with ⟨hb, hs, -⟩ | ⟨new, hb, -, hs⟩
  · rcases recorded_snoc.mp hc with hold | ⟨hlast, -⟩
    · rw [run_snoc, asOf, commitAt, hs]
      exact h id c hold
    · rw [hb] at hlast
      cases hlast
  · have hnew : Recorded (calls ++ [call]) new.id new := recorded_snoc.mpr (Or.inr ⟨hb, rfl⟩)
    rw [run_snoc, asOf, commitAt, hs, append, BTreeMap.get_insert]
    by_cases hid : new.id = id
    · have hrev : SameRevision new c := by
        rcases recorded_snoc.mp hc with hold | ⟨hlast, -⟩
        · obtain ⟨-, d, hd, hdc⟩ := h id c hold
          have hdr := recorded_of_stored hd
          have hin : hashInput d = hashInput new := by
            refine hn _ (recorded_snoc.mpr (Or.inl hdr)).hashInput_mem _ hnew.hashInput_mem ?_
            rw [← hdr.id_eq.2, ← hnew.id_eq.2, hid]
          obtain ⟨hp, hm, ht⟩ := computeIdInput_eq_iff.mp hin
          obtain ⟨h₁, h₂, h₃⟩ :=
            callOk_iff.mp hok new hb d (BTreeMap.mem_vals.mpr ⟨id, hd⟩) hp hm ht
          exact ⟨h₁ ▸ hdc.snapshot, h₂ ▸ hdc.parent, h₃ ▸ hdc.secondParent⟩
        · rw [hb, Option.some.injEq] at hlast
          subst hlast
          exact ⟨rfl, rfl, rfl⟩
      rw [if_pos hid]
      exact ⟨by simp [hrev.snapshot], new, rfl, hrev⟩
    · rw [if_neg hid]
      rcases recorded_snoc.mp hc with hold | ⟨hlast, hci⟩
      · exact h id c hold
      · rw [hb, Option.some.injEq] at hlast
        exact absurd (hlast ▸ hci) hid

/-- Storing a revision that is not fresh loses an earlier one. -/
theorem Immutable.callOk {calls : List Call} {call : Call} (h : Immutable (calls ++ [call])) :
    (run calls).CallOk call := by
  rw [callOk_iff]
  intro new hb old hold hp hm ht
  obtain ⟨id, hid⟩ := BTreeMap.mem_vals.mp hold
  have hrec := recorded_of_stored hid
  have hnew : Recorded (calls ++ [call]) new.id new := recorded_snoc.mpr (Or.inr ⟨hb, rfl⟩)
  have hin : hashInput old = hashInput new := computeIdInput_eq_iff.mpr ⟨hp, hm, ht⟩
  have hids : id = new.id := by
    have hbytes := hrec.id_eq.2
    rw [hin, ← hnew.id_eq.2] at hbytes
    cases id
    exact congrArg Id.mk hbytes
  subst hids
  obtain ⟨-, d, hd, hdo⟩ := h _ _ (recorded_snoc.mpr (Or.inl hrec))
  obtain ⟨-, e, he, hen⟩ := h _ _ hnew
  rw [hd, Option.some.injEq] at he
  subst he
  exact ⟨hdo.snapshot.symm.trans hen.snapshot, hdo.parent.symm.trans hen.parent,
    hdo.secondParent.symm.trans hen.secondParent⟩

/-- Without digest collisions, the history stays readable throughout a run exactly when
every call of it stores a fresh revision. -/
theorem immutable_iff_calls_ok (calls : List Call) (hn : NoCollisions calls) :
    (∀ pre post, calls = pre ++ post → Immutable pre) ↔
      ∀ pre call post, calls = pre ++ call :: post → (run pre).CallOk call := by
  constructor
  · intro h pre call post hcalls
    exact (h (pre ++ [call]) post (by simp [hcalls])).callOk
  · intro h pre
    induction pre using List.reverseRecOn with
    | nil => exact fun _ _ _ _ hr => absurd hr not_recorded_nil
    | append_singleton pre call ih =>
      intro post hcalls
      have hpre : calls = pre ++ call :: post := by simp [hcalls]
      refine (ih (call :: post) hpre).step ?_ (h pre call post hpre)
      exact (hcalls ▸ hn).of_append

end Runs

private def epoch : DateTime := ⟨0, 0⟩

/-- An ontology with one node. -/
private def labelled (iri : String) : Ontology :=
  { Ontology.empty.upsertNode ⟨⟨Vector.replicate 32 1⟩, none, ["Organization"], ∅⟩ with
    iri := some ⟨iri⟩ }

/-- Two branches commit different snapshots on one parent under one message. -/
private def forkedRun : List Call :=
  [.commit "root" "ann" (labelled "v0") epoch, .branch "feature",
    .commit "update" "ann" (labelled "v1") epoch, .checkout "feature",
    .commit "update" "bob" (labelled "v2") epoch]

/-- The second branch's commit replaces the first's: its id no longer returns what its
call recorded. -/
theorem forked_run_loses_a_revision :
    @NoCollisions Blake3.ofLength .plain forkedRun ∧
    ¬@Immutable Blake3.ofLength .plain forkedRun := by
  let _ := Blake3.ofLength
  let _ := SerdeJson.plain
  refine ⟨by unfold NoCollisions; decide +kernel, fun h => ?_⟩
  let first := (run (forkedRun.take 2)).newCommit "update" "ann" (labelled "v1") epoch
  let second := (run (forkedRun.take 4)).newCommit "update" "bob" (labelled "v2") epoch
  have hfirst : Recorded forkedRun first.id first :=
    recorded_built (forkedRun.take 2) (forkedRun.drop 3) rfl
  have hsecond : Recorded forkedRun second.id second :=
    recorded_built (forkedRun.take 4) [] rfl
  have hid : first.id = second.id := by decide +kernel
  have hsnap := (h _ _ hfirst).1
  rw [hid, (h _ _ hsecond).1, Option.some.injEq] at hsnap
  exact absurd (congrArg Ontology.iri hsnap) (by decide)

/-- A run of two commits with different messages keeps its history. -/
theorem immutable_iff_calls_ok_two_messages :
    (∀ pre post, forkedRun.take 3 = pre ++ post → @Immutable Blake3.ofLength .plain pre) ↔
      ∀ pre call post, forkedRun.take 3 = pre ++ call :: post →
        (@run Blake3.ofLength .plain pre).CallOk call :=
  @immutable_iff_calls_ok Blake3.ofLength .plain (forkedRun.take 3)
    (by unfold NoCollisions; decide +kernel)

end VersionedStore

end AtomrOntology
