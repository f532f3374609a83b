import AtomrOntology.Version.Lineage

/-!
# When there is nothing to merge

A merge looks only at whether the two heads are the same commit. The history of the other
branch is nothing new as soon as its head is an ancestor of the current one, so a merge
of an ancestor that is not the head itself stores a commit all the same.
-/

namespace AtomrOntology

namespace VersionedStore

/-- One commit is reached from the other over parents of either kind, or is the same. -/
def Ancestor (s : VersionedStore) (a b : CommitId) : Prop := Relation.ReflTransGen s.ParentOf b a

section

variable [Blake3] [SerdeJson]

/-- Merging another branch has nothing to merge exactly if its head is an ancestor of the
current one, and then changes nothing. -/
def MergesOnlyNews (s : VersionedStore) (other : String) (strategy : MergeStrategy)
    (now : DateTime) : Prop :=
  ∀ currentHead otherHead, other ≠ s.current → s.headId = some currentHead →
    s.branches[other]? = some otherHead →
    (s.Ancestor otherHead currentHead →
      s.step (.merge other strategy now) = (.error (.nothingToMerge other), s)) ∧
    (¬s.Ancestor otherHead currentHead →
      ∃ id s', s.step (.merge other strategy now) = (.ok (some id), s'))

/-- The other branch has fallen behind: its head is an ancestor of the current head and another
commit. -/
def Behind (s : VersionedStore) (other : String) : Prop :=
  ∃ currentHead otherHead, s.headId = some currentHead ∧ s.branches[other]? = some otherHead ∧
    otherHead ≠ currentHead ∧ s.Ancestor otherHead currentHead

variable {s : VersionedStore} {other : String}

/-- Equal heads are not merged. -/
theorem WellFormed.step_merge_of_eq (h : s.WellFormed) {head : CommitId}
    (hother : other ≠ s.current)
    (hc : s.headId = some head) (ho : s.branches[other]? = some head) (strategy : MergeStrategy)
    (now : DateTime) :
    s.step (.merge other strategy now) = (.error (.nothingToMerge other), s) := by
  obtain ⟨c, hcommit⟩ := h.heads other head ho
  have hnew : s.newMerge other strategy now = .error (.nothingToMerge other) := by
    simp only [newMerge, if_neg hother, ho, hc, hcommit, if_true]
  simp only [VersionedStore.step, merge, hnew]
  rfl

/-- Different heads are. -/
theorem WellFormed.step_merge_of_ne (h : s.WellFormed) {currentHead otherHead : CommitId}
    (hc : s.headId = some currentHead) (ho : s.branches[other]? = some otherHead)
    (hne : currentHead ≠ otherHead) (strategy : MergeStrategy) (now : DateTime) :
    ∃ id s', s.step (.merge other strategy now) = (.ok (some id), s') := by
  obtain ⟨ours, hours⟩ := h.heads s.current currentHead hc
  obtain ⟨theirs, htheirs⟩ := h.heads other otherHead ho
  have hnew : s.newMerge other strategy now = .ok (s.mergeCommit other currentHead otherHead
      ours.snapshot theirs.snapshot strategy now) :=
    newMerge_eq_ok.mpr ⟨currentHead, otherHead, ours, theirs, hc, ho, hours, htheirs, hne, rfl⟩
  simp only [VersionedStore.step, merge, hnew]
  exact ⟨_, _, rfl⟩

/-- In every reachable store a merge does what it should exactly if the other branch has not
fallen behind. -/
theorem mergesOnlyNews_iff_not_behind (calls : List Call) (other : String)
    (strategy : MergeStrategy) (now : DateTime) :
    (run calls).MergesOnlyNews other strategy now ↔ ¬(run calls).Behind other := by
  have hwell := wellFormed_run calls
  constructor
  · intro h hbehind
    obtain ⟨currentHead, otherHead, hc, ho, hne, hanc⟩ := hbehind
    have hother : other ≠ (run calls).current := by
      rintro rfl
      exact hne (Option.some.inj (ho.symm.trans hc))
    obtain ⟨id, s', hok⟩ := hwell.step_merge_of_ne hc ho hne.symm strategy now
    rw [(h currentHead otherHead hother hc ho).1 hanc] at hok
    cases (Prod.mk.inj hok).1
  · intro h currentHead otherHead hother hc ho
    refine ⟨fun hanc => ?_, fun hanc => ?_⟩
    · have heq : otherHead = currentHead := by
        by_contra hne
        exact h ⟨currentHead, otherHead, hc, ho, hne, hanc⟩
      rw [heq] at ho
      exact hwell.step_merge_of_eq hother hc ho strategy now
    · refine hwell.step_merge_of_ne hc ho (fun heq => hanc ?_) strategy now
      rw [heq]
      exact Relation.ReflTransGen.refl

end

/-- A branch, and one commit more on the branch it was forked from. -/
private def aheadRun : List Call :=
  [.commit "root" "ann" .empty .epoch, .branch "feature", .commit "update" "ann" .empty .epoch]

private theorem heads_of_aheadRun :
    (@run Blake3.ofLength .plain aheadRun).headId = some (.filled 159) ∧
      (@run Blake3.ofLength .plain aheadRun).branches["feature"]? = some (.filled 157) ∧
      (@run Blake3.ofLength .plain aheadRun).commits[(.filled 159 : CommitId)]?.bind Commit.parent =
        some (.filled 157) := by
  decide +kernel

/-- The branch's head is the parent of the current head, and merging it stores a commit. -/
theorem behind_is_merged :
    ¬@MergesOnlyNews Blake3.ofLength .plain (@run Blake3.ofLength .plain aheadRun) "feature" .ours
      .epoch := by
  let _ := Blake3.ofLength
  let _ := SerdeJson.plain
  intro h
  obtain ⟨hc, ho, hparent⟩ := heads_of_aheadRun
  obtain ⟨c, hcommit, hparent⟩ := Option.bind_eq_some_iff.mp hparent
  have hother : "feature" ≠ (run aheadRun).current := by decide +kernel
  have hne : (.filled 159 : CommitId) ≠ .filled 157 := by simp
  obtain ⟨id, s', hok⟩ := (wellFormed_run aheadRun).step_merge_of_ne hc ho hne .ours .epoch
  rw [(h _ _ hother hc ho).1 (.single ⟨c, hcommit, Or.inl hparent⟩)] at hok
  cases (Prod.mk.inj hok).1

end VersionedStore

end AtomrOntology
