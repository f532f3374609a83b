import AtomrOntology.Core.Multimap
import AtomrOntology.Logic.BreadthFirst
import AtomrOntology.Version.Merge

/-!
# The log

The log is a breadth-first search of the ancestors of the current head. In a reachable
store it ends, and lists every ancestor once, those with fewer links to the head first.
-/

namespace AtomrOntology

open Walk

namespace VersionedStore

/-- Put a parent into the queue if it was not seen before. -/
def enqueue (parent : Option CommitId) (seen : BTreeSet CommitId) (queue : List CommitId) :
    BTreeSet CommitId × List CommitId :=
  match parent with
  | none => (seen, queue)
  | some p => if seen.contains p then (seen, queue) else (seen.insert p, queue ++ [p])

/-- The loop of the log, or nothing if the fuel runs out first. -/
def logLoop (s : VersionedStore) :
    Nat → BTreeSet CommitId → List CommitId → List Commit → Option (List Commit)
  | _, _, [], out => some out
  | 0, _, _ :: _, _ => none
  | fuel + 1, seen, id :: queue, out =>
    match s.commits[id]? with
    | none => logLoop s fuel seen queue out
    | some commit =>
      let (seen, queue) := enqueue commit.parent seen queue
      let (seen, queue) := enqueue commit.secondParent seen queue
      logLoop s fuel seen queue (out ++ [commit])

/-- The commits that lead to the current head, the head first. -/
def log (s : VersionedStore) (fuel : Nat) : Option (List Commit) :=
  match s.headId with
  | none => some []
  | some start => s.logLoop fuel {start} [start] []

variable {s : VersionedStore}

/-- What a log is: all ancestors of the head and nothing else, each once, sorted by the number
of links that lead to them, the head first. -/
structure IsLog (s : VersionedStore) (history : List Commit) : Prop where
  exact : ∀ c, c ∈ history ↔
    s.commits[c.id]? = some c ∧ ∃ head, s.headId = some head ∧ s.Ancestor c.id head
  nodup : (history.map Commit.id).Nodup
  head : (history.map Commit.id).head? = s.headId
  sorted : ∀ head, s.headId = some head →
    (history.map Commit.id).Pairwise (NoFarther s.ParentOf head)

/-- What `enqueue` appends to the queue. -/
private def fresh (parent : Option CommitId) (seen : BTreeSet CommitId) : List CommitId :=
  parent.toList.filter fun p => !seen.contains p

private theorem mem_fresh {parent : Option CommitId} {seen : BTreeSet CommitId} {p : CommitId} :
    p ∈ fresh parent seen ↔ parent = some p ∧ p ∉ seen := by
  have hmem : seen.contains p = false ↔ p ∉ seen := by
    rw [← Bool.not_eq_true, Std.ExtTreeSet.contains_iff_mem]
  simp [fresh, hmem]

private theorem nodup_fresh (parent : Option CommitId) (seen : BTreeSet CommitId) :
    (fresh parent seen).Nodup := by
  apply List.Nodup.filter
  cases parent <;> simp

private theorem enqueue_queue (parent : Option CommitId) (seen : BTreeSet CommitId)
    (queue : List CommitId) :
    (enqueue parent seen queue).2 = queue ++ fresh parent seen := by
  cases parent with
  | none => simp [enqueue, fresh]
  | some p =>
    by_cases hp : seen.contains p <;> simp [enqueue, fresh, hp]

private theorem mem_enqueue_seen {parent : Option CommitId} {seen : BTreeSet CommitId}
    {queue : List CommitId} {p : CommitId} :
    p ∈ (enqueue parent seen queue).1 ↔ parent = some p ∨ p ∈ seen := by
  cases parent with
  | none => simp [enqueue]
  | some q =>
    by_cases hq : seen.contains q
    · have hmem : q ∈ seen := Std.ExtTreeSet.contains_iff_mem.mp hq
      rw [enqueue, if_pos hq, Option.some.injEq]
      constructor
      · exact Or.inr
      · rintro (rfl | hp)
        · exact hmem
        · exact hp
    · rw [enqueue, if_neg hq, Option.some.injEq]
      simp

/-- A stored commit is taken from the queue and its parents join it. -/
theorem logLoop_cons {commit : Commit} {id : CommitId} {seen : BTreeSet CommitId}
    {queue : List CommitId} (h : s.commits[id]? = some commit) :
    ∃ (seen' : BTreeSet CommitId) (news : List CommitId),
      (∀ fuel out, s.logLoop (fuel + 1) seen (id :: queue) out =
        s.logLoop fuel seen' (queue ++ news) (out ++ [commit])) ∧
      (∀ p, p ∈ seen' ↔ s.ParentOf id p ∨ p ∈ seen) ∧
      news.Nodup ∧ ∀ p, p ∈ news ↔ s.ParentOf id p ∧ p ∉ seen := by
  have hparent : ∀ p, s.ParentOf id p ↔ commit.parent = some p ∨ commit.secondParent = some p := by
    intro p
    simp [ParentOf, h]
  let seen₁ := (enqueue commit.parent seen queue).1
  have hseen₁ : ∀ p, p ∈ seen₁ ↔ commit.parent = some p ∨ p ∈ seen := fun p => mem_enqueue_seen
  refine ⟨(enqueue commit.secondParent seen₁ (enqueue commit.parent seen queue).2).1,
    fresh commit.parent seen ++ fresh commit.secondParent seen₁, fun fuel out => ?_, fun p => ?_,
    ?_, fun p => ?_⟩
  · rw [logLoop, h, ← List.append_assoc, ← enqueue_queue, ← enqueue_queue]
  · rw [mem_enqueue_seen, hseen₁, hparent]
    tauto
  · rw [List.nodup_append]
    refine ⟨nodup_fresh _ _, nodup_fresh _ _, fun a ha b hb hab => ?_⟩
    subst hab
    exact (mem_fresh.mp hb).2 ((hseen₁ a).mpr (Or.inl (mem_fresh.mp ha).1))
  · rw [List.mem_append, mem_fresh, mem_fresh, hseen₁, hparent]
    tauto

/-- With as much fuel as there are nodes left, the loop ends with a search that has an empty
queue. -/
theorem WellFormed.logLoop_eq (hwell : s.WellFormed) {start : CommitId} (hstart : s.Stored start)
    (fuel : Nat) {done queue : List CommitId} {seen : BTreeSet CommitId} {out : List Commit}
    (h : Front s.ParentOf start done queue) (hseen : ∀ p, p ∈ seen ↔ p ∈ done ++ queue)
    (hout : out.map (fun c => s.commits[c.id]?) = out.map some)
    (hdone : out.map Commit.id = done) (hfuel : s.commits.size ≤ fuel + done.length) :
    ∃ history, s.logLoop fuel seen queue out = some history ∧
      history.map (fun c => s.commits[c.id]?) = history.map some ∧
      Front s.ParentOf start (history.map Commit.id) [] := by
  have hstored : ∀ id, Relation.ReflTransGen s.ParentOf start id → s.Stored id := by
    intro id hid
    cases hid with
    | refl => exact hstart
    | tail _ hr => exact hwell.parents _ _ hr
  induction fuel generalizing done queue seen out with
  | zero =>
    have hkeys : ∀ id, Relation.ReflTransGen s.ParentOf start id → id ∈ s.commits.keys := by
      intro id hid
      obtain ⟨c, hc⟩ := hstored id hid
      rw [Std.ExtTreeMap.mem_keys, Std.ExtTreeMap.mem_iff_isSome_getElem?, hc]
      rfl
    have hle := h.length_le hkeys
    rw [Std.ExtTreeMap.length_keys] at hle
    obtain rfl : queue = [] := List.eq_nil_of_length_eq_zero (by omega)
    exact ⟨out, rfl, hout, hdone ▸ h⟩
  | succ fuel ih =>
    cases queue with
    | nil => exact ⟨out, rfl, hout, hdone ▸ h⟩
    | cons id queue =>
      obtain ⟨commit, hcommit⟩ := hstored id (h.reached id (by simp))
      have hid := hwell.keyed id commit hcommit
      obtain ⟨seen', news, hloop, hseen', hnodup, hnews⟩ :=
        @logLoop_cons s commit id seen queue hcommit
      rw [hloop]
      refine ih (h.pop hnodup ?_ ?_) ?_ ?_ ?_ ?_
      · intro p hp
        rw [← hseen]
        exact (hnews p).mp hp
      · intro p hp
        rw [← hseen, hnews]
        by_cases hmem : p ∈ seen
        · exact Or.inl hmem
        · exact Or.inr ⟨hp, hmem⟩
      · intro p
        have hp := hseen p
        rw [hseen', List.append_assoc, List.singleton_append, ← List.cons_append,
          ← List.append_assoc, List.mem_append, ← hp, hnews]
        tauto
      · rw [List.map_append, List.map_append, hout, List.map_singleton, List.map_singleton, hid,
          hcommit]
      · rw [List.map_append, hdone, List.map_singleton, hid]
      · rw [List.length_append, List.length_singleton]
        omega

/-- More fuel does not change the result. -/
theorem logLoop_mono {fuel fuel' : Nat} {seen : BTreeSet CommitId} {queue : List CommitId}
    {out history : List Commit} (h : s.logLoop fuel seen queue out = some history)
    (hle : fuel ≤ fuel') : s.logLoop fuel' seen queue out = some history := by
  induction fuel generalizing fuel' seen queue out with
  | zero =>
    cases queue with
    | nil =>
      rw [logLoop] at h ⊢
      exact h
    | cons id queue => cases h
  | succ fuel ih =>
    cases queue with
    | nil =>
      rw [logLoop] at h ⊢
      exact h
    | cons id queue =>
      obtain ⟨fuel', rfl⟩ : ∃ k, fuel' = k + 1 := ⟨fuel' - 1, by omega⟩
      have hle' : fuel ≤ fuel' := by omega
      rw [logLoop] at h ⊢
      cases hcommit : s.commits[id]? with
      | none =>
        rw [hcommit] at h
        exact ih h hle'
      | some commit =>
        rw [hcommit] at h
        exact ih h hle'

variable [Blake3] [SerdeJson]

/-- In every reachable store the log ends and lists the ancestors of the head breadth first. -/
theorem log_lists_ancestors (calls : List Call) : ∃ limit history,
    (∀ fuel ≥ limit, (run calls).log fuel = some history) ∧ (run calls).IsLog history := by
  have hwell := wellFormed_run calls
  cases hhead : (run calls).headId with
  | none =>
    refine ⟨0, [], fun fuel _ => by rw [log, hhead], ?_⟩
    refine ⟨fun c => ?_, List.nodup_nil, hhead.symm, fun head h => ?_⟩
    · simp [hhead]
    · rw [hhead] at h
      cases h
  | some start =>
    have hstart := hwell.heads _ _ hhead
    have hseen : ∀ p, p ∈ ({start} : BTreeSet CommitId) ↔ p ∈ [] ++ [start] := by
      intro p
      have hinsert : p ∈ ({start} : BTreeSet CommitId) ↔ p = start ∨ p ∈ (∅ : BTreeSet CommitId) :=
        BTreeSet.mem_insert
      simpa using hinsert
    have hout : ([] : List Commit).map (fun c => (run calls).commits[c.id]?) = [].map some := rfl
    obtain ⟨history, hloop, hstored, hfront⟩ := hwell.logLoop_eq hstart (run calls).commits.size
      .init hseen hout rfl le_rfl
    refine ⟨(run calls).commits.size, history, fun fuel hfuel => ?_, ?_⟩
    · rw [log, hhead]
      exact logLoop_mono hloop hfuel
    · have hget : ∀ c ∈ history, (run calls).commits[c.id]? = some c := by
        rwa [List.map_inj_left] at hstored
      refine ⟨fun c => ?_, by simpa using hfront.nodup, ?_, fun head h => ?_⟩
      · constructor
        · intro hc
          exact ⟨hget c hc, start, hhead, hfront.mem_iff.mp (List.mem_map_of_mem hc)⟩
        · rintro ⟨hc, head, h, hanc⟩
          obtain rfl := Option.some.inj (hhead.symm.trans h)
          obtain ⟨d, hd, hid⟩ := List.mem_map.mp (hfront.mem_iff.mpr hanc)
          have hdc := hget d hd
          rw [hid, hc] at hdc
          exact Option.some.inj hdc ▸ hd
      · rw [hhead, ← hfront.first, List.append_nil]
      · obtain rfl := Option.some.inj (hhead.symm.trans h)
        simpa using hfront.sorted

end VersionedStore

end AtomrOntology
