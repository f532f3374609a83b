import AtomrOntology.Version.History

/-!
# The shape of the commit graph

Every commit lies under its own id, its parents and all branch heads are stored, and a
failed call changes nothing. An id commits to the ids its hash input mentions, which are
older than it, because no message spells out a digest that has yet to be computed.
-/

namespace AtomrOntology

namespace VersionedStore

/-- A computation that changes the store in place. An error keeps the changes made so far. -/
abbrev Mutating (α : Type) := ExceptT VersionError (StateM VersionedStore) α

namespace Mutating

def insertCommit (c : Commit) : Mutating PUnit :=
  modify fun self => { self with commits := self.commits.insert c.id c }

def insertBranch (name : String) (id : CommitId) : Mutating PUnit :=
  modify fun self => { self with branches := self.branches.insert name id }

def branch (name : String) : Mutating PUnit := do
  let self ← get
  if self.branches.contains name then throw (.branchExists name)
  match self.branches[self.current]? with
  | none => throw (.emptyCurrentBranch self.current)
  | some head => insertBranch name head

def checkout (name : String) : Mutating PUnit := do
  let self ← get
  if !self.branches.contains name then throw (.unknownBranch name)
  set { self with current := name }

variable [Blake3] [SerdeJson]

def commit (message author : String) (snapshot : Ontology) (now : DateTime) :
    Mutating CommitId := do
  let self ← get
  let commit := self.newCommit message author snapshot now
  insertCommit commit
  insertBranch self.current commit.id
  return commit.id

def merge (other : String) (strategy : MergeStrategy) (now : DateTime) : Mutating CommitId := do
  let self ← get
  match self.newMerge other strategy now with
  | .error e => throw e
  | .ok commit =>
    insertCommit commit
    insertBranch self.current commit.id
    return commit.id

/-- A call as it runs. -/
def call : Call → Mutating (Option CommitId)
  | .commit message author snapshot now => some <$> commit message author snapshot now
  | .branch name => do
    branch name
    return none
  | .checkout name => do
    checkout name
    return none
  | .merge other strategy now => some <$> merge other strategy now

omit [Blake3] [SerdeJson] in
private theorem get_bind {α : Type} (k : VersionedStore → Mutating α) (s : VersionedStore) :
    (get >>= k).run s = (k s).run s := rfl

/-- Running a call in place is the step of the store. -/
theorem call_eq_step (s : VersionedStore) (c : Call) : (call c).run s = s.step c := by
  cases c with
  | commit message author snapshot now => rfl
  | branch name =>
    have hcall : (call (.branch name)).run s =
        (branch name >>= fun _ => pure none : Mutating (Option CommitId)).run s := rfl
    simp only [step, VersionedStore.branch, headId]
    rw [hcall, branch, bind_assoc, get_bind]
    by_cases hname : s.branches.contains name
    · rw [if_pos hname, if_pos hname]
      rfl
    · rw [if_neg hname, if_neg hname]
      cases s.branches[s.current]? with
      | none => rfl
      | some head => rfl
  | checkout name =>
    have hcall : (call (.checkout name)).run s =
        (checkout name >>= fun _ => pure none : Mutating (Option CommitId)).run s := rfl
    simp only [step, VersionedStore.checkout]
    rw [hcall, checkout, bind_assoc, get_bind]
    by_cases hname : s.branches.contains name
    · rw [if_neg (by simp [hname]), if_pos hname]
      rfl
    · rw [if_pos (by simp [hname]), if_neg hname]
      rfl
  | merge other strategy now =>
    have hcall : (call (.merge other strategy now)).run s =
        (merge other strategy now >>= fun id => pure (some id)).run s := rfl
    simp only [step, VersionedStore.merge]
    rw [hcall, merge, bind_assoc, get_bind]
    cases s.newMerge other strategy now with
    | error e => rfl
    | ok c => rfl

end Mutating

/-- A commit lies under the id. -/
def Stored (s : VersionedStore) (id : CommitId) : Prop := ∃ c, s.commits[id]? = some c

/-- The commit under `id` names `p` as one of its parents. -/
def ParentOf (s : VersionedStore) (id p : CommitId) : Prop :=
  ∃ c, s.commits[id]? = some c ∧ (c.parent = some p ∨ c.secondParent = some p)

/-- No commit is its own ancestor. -/
def Acyclic (s : VersionedStore) : Prop := ∀ id, ¬Relation.TransGen s.ParentOf id id

/-- Nothing dangles: commits, parents and heads are where they are looked up. -/
structure WellFormed (s : VersionedStore) : Prop where
  keyed : s.commits.KeyedBy Commit.id
  heads : ∀ (name : String) (id : CommitId), s.branches[name]? = some id → s.Stored id
  parents : ∀ id p, s.ParentOf id p → s.Stored p
  current : s.branches = ∅ ∨ ∃ id, s.headId = some id

/-- Ancestors of lower rank than their descendants form no cycle. -/
theorem acyclic_of_rank {s : VersionedStore} (rank : CommitId → Nat)
    (h : ∀ id p, s.ParentOf id p → rank p < rank id) : s.Acyclic := by
  have hlt : ∀ id p, Relation.TransGen s.ParentOf id p → rank p < rank id := by
    intro id p hp
    induction hp with
    | single hp => exact h _ _ hp
    | tail _ hp ih => exact (h _ _ hp).trans ih
  intro id hid
  exact absurd (hlt id id hid) (lt_irrefl _)

theorem stored_append {s : VersionedStore} {c : Commit} {id : CommitId} :
    (s.append c).Stored id ↔ id = c.id ∨ s.Stored id := by
  unfold Stored append
  simp only [BTreeMap.get_insert]
  by_cases hid : c.id = id
  · simp [hid]
  · simp [hid, Ne.symm hid]

theorem wellFormed_init : WellFormed init where
  keyed := .empty _
  heads name id h := by simp [init] at h
  parents id p h := by
    obtain ⟨c, hc, -⟩ := h
    simp [init] at hc
  current := Or.inl rfl

/-- A fork of the current head keeps the store well-formed. -/
theorem WellFormed.branch {s s' : VersionedStore} {name : String} (h : s.WellFormed)
    (hs : s.branch name = .ok s') : s'.WellFormed := by
  unfold VersionedStore.branch at hs
  split at hs
  · cases hs
  · cases hhead : s.headId with
    | none =>
      rw [hhead] at hs
      cases hs
    | some head =>
      rw [hhead] at hs
      obtain rfl := Except.ok.inj hs
      refine ⟨h.keyed, fun other id hid => ?_, h.parents, ?_⟩
      · simp only [BTreeMap.get_insert] at hid
        by_cases hname : name = other
        · rw [if_pos hname] at hid
          exact h.heads s.current id (hhead.trans hid)
        · rw [if_neg hname] at hid
          exact h.heads other id hid
      · right
        simp only [headId, BTreeMap.get_insert]
        by_cases hname : name = s.current
        · exact ⟨head, by rw [if_pos hname]⟩
        · exact ⟨head, by rw [if_neg hname]; exact hhead⟩

/-- A known branch can be checked out. -/
theorem WellFormed.checkout {s s' : VersionedStore} {name : String} (h : s.WellFormed)
    (hs : s.checkout name = .ok s') : s'.WellFormed := by
  unfold VersionedStore.checkout at hs
  split at hs
  · next hname =>
    obtain rfl := Except.ok.inj hs
    refine ⟨h.keyed, h.heads, h.parents, Or.inr ?_⟩
    rw [← Std.ExtTreeMap.isSome_getElem?_eq_contains] at hname
    exact Option.isSome_iff_exists.mp hname
  · cases hs

section

variable [Blake3] [SerdeJson]

/-- The parents of a commit being built are heads. -/
theorem built_parents {s : VersionedStore} {call : Call} {c : Commit} (h : s.built call = some c) :
    c.parent = s.headId ∧ ∀ p, c.secondParent = some p → ∃ name : String,
    s.branches[name]? = some p := by
  cases call with
  | commit message author snapshot now =>
    obtain rfl := Option.some.inj h
    exact ⟨rfl, fun p hp => by cases hp⟩
  | branch name => cases h
  | checkout name => cases h
  | merge other strategy now =>
    obtain ⟨currentHead, otherHead, _, _, hc, ho, _, _, _, rfl⟩ :=
      newMerge_eq_ok.mp (built_merge.mp h)
    exact ⟨hc.symm, fun p hp => ⟨other, by rw [ho, ← hp]; rfl⟩⟩

/-- A built commit whose parents are stored keeps a well-formed store well-formed. -/
theorem WellFormed.append {s : VersionedStore} {call : Call} {c : Commit} (h : s.WellFormed)
    (hc : s.built call = some c) : (s.append c).WellFormed where
  keyed := h.keyed.insert c
  heads name id hid := by
    rw [stored_append]
    simp only [VersionedStore.append, BTreeMap.get_insert] at hid
    by_cases hname : s.current = name
    · rw [if_pos hname] at hid
      exact Or.inl (Option.some.inj hid).symm
    · rw [if_neg hname] at hid
      exact Or.inr (h.heads name id hid)
  parents id p hp := by
    rw [stored_append]
    right
    obtain ⟨d, hd, hp⟩ := hp
    simp only [VersionedStore.append, BTreeMap.get_insert] at hd
    by_cases hid : c.id = id
    · rw [if_pos hid] at hd
      obtain rfl := Option.some.inj hd
      obtain ⟨hparent, hsecond⟩ := built_parents hc
      rcases hp with hp | hp
      · exact h.heads s.current p (hparent.symm.trans hp)
      · obtain ⟨name, hname⟩ := hsecond p hp
        exact h.heads name p hname
    · rw [if_neg hid] at hd
      exact h.parents id p ⟨d, hd, hp⟩
  current := by
    right
    refine ⟨c.id, ?_⟩
    simp only [headId, VersionedStore.append, BTreeMap.get_insert, if_true]

/-- Every call keeps the store well-formed. -/
theorem WellFormed.step {s : VersionedStore} (h : s.WellFormed) (call : Call) :
    (s.step call).2.WellFormed := by
  cases call with
  | commit message author snapshot now =>
    exact @append _ _ _ (.commit message author snapshot now) _ h rfl
  | branch name =>
    simp only [VersionedStore.step]
    cases hs : s.branch name with
    | error e => exact h
    | ok s' => exact h.branch hs
  | checkout name =>
    simp only [VersionedStore.step]
    cases hs : s.checkout name with
    | error e => exact h
    | ok s' => exact h.checkout hs
  | merge other strategy now =>
    simp only [VersionedStore.step, merge]
    cases hs : s.newMerge other strategy now with
    | error e => exact h
    | ok c => exact h.append (built_merge.mpr hs)

theorem wellFormed_run (calls : List Call) : (run calls).WellFormed := by
  induction calls using List.reverseRecOn with
  | nil => exact wellFormed_init
  | append_singleton calls call ih =>
    rw [run_snoc]
    exact ih.step call

/-- Commits are never removed. -/
theorem Stored.run_append {calls : List Call} {id : CommitId} (h : (run calls).Stored id)
    (post : List Call) : (run (calls ++ post)).Stored id := by
  induction post using List.reverseRecOn with
  | nil => simpa using h
  | append_singleton post call ih =>
    rw [← List.append_assoc, run_snoc]
    rcases step_cases (run (calls ++ post)) call with ⟨-, hs, -⟩ | ⟨c, -, -, hs⟩
    · unfold Stored
      rw [hs]
      exact ih
    · rw [hs, stored_append]
      exact Or.inr ih

/-- A failed call changes nothing. -/
theorem unchanged_of_error {s s' : VersionedStore} {call : Call} {e : VersionError}
    (h : (Mutating.call call).run s = (.error e, s')) : s' = s := by
  rw [Mutating.call_eq_step] at h
  cases call with
  | commit message author snapshot now => cases h
  | branch name =>
    simp only [step] at h
    cases hs : s.branch name <;> rw [hs] at h <;> cases h
    rfl
  | checkout name =>
    simp only [step] at h
    cases hs : s.checkout name <;> rw [hs] at h <;> cases h
    rfl
  | merge other strategy now =>
    simp only [step] at h
    cases hs : s.merge other strategy now <;> rw [hs] at h <;> cases h
    rfl

/-- The ids that the hash input of a commit embeds: its parent's bytes, and an id that the
hashed message ends with in the form merges use. -/
def Mentions (c : Commit) (p : CommitId) : Prop :=
  parentBytes c.parent = p.bytes ∨
    ∃ m, hashedMessage c.secondParent c.message = m ++ "\x00merge-with:" ++ p.toHex

omit [Blake3] [SerdeJson] in
theorem mentions_parent {c : Commit} {p : CommitId}
    (h : c.parent = some p ∨ c.secondParent = some p) : Mentions c p := by
  rcases h with h | h
  · left
    rw [h, parentBytes]
  · right
    exact ⟨c.message, by rw [h, hashedMessage]⟩

omit [Blake3] in
theorem Mentions.of_hashInput_eq {c d : Commit} {p : CommitId} (h : Mentions c p)
    (heq : hashInput c = hashInput d) : Mentions d p := by
  obtain ⟨hparent, hmessage, -⟩ := computeIdInput_eq_iff.mp heq
  unfold Mentions at h ⊢
  rwa [← hparent, ← hmessage]

/-- The digest is never zero on the inputs of a run. -/
def NoZeros (calls : List Call) : Prop :=
  ∀ x ∈ hashInputsFrom init calls, Blake3.deriveKey commitContext x ≠ Vector.replicate 32 0

/-- Nobody foresees a digest: a message that ends with `\0merge-with:` and the digest of an
input of the run is given only after that input was hashed. -/
def NoForesight (calls : List Call) : Prop :=
  ∀ pre message author snapshot now post m x,
    calls = pre ++ .commit message author snapshot now :: post →
    x ∈ hashInputsFrom init calls →
    message = m ++ "\x00merge-with:" ++ Hex.encode (Blake3.deriveKey commitContext x).toList →
    x ∈ hashInputsFrom init pre

theorem NoZeros.of_append {calls post : List Call} (h : NoZeros (calls ++ post)) :
    NoZeros calls := by
  intro x hx
  rw [NoZeros, hashInputsFrom_append] at h
  exact h x (List.mem_append_left _ hx)

theorem NoForesight.of_append {calls post : List Call} (h : NoForesight (calls ++ post)) :
    NoForesight calls := by
  intro pre message author snapshot now after m x hcalls hx hmessage
  refine h pre message author snapshot now (after ++ post) m x (by simp [hcalls]) ?_ hmessage
  rw [hashInputsFrom_append]
  exact List.mem_append_left _ hx

/-- Whatever is stored was built by some call. -/
theorem exists_built {calls : List Call} {id : CommitId} {c : Commit}
    (h : (run calls).commits[id]? = some c) :
    ∃ pre call post, calls = pre ++ call :: post ∧ (run pre).built call = some c ∧ c.id = id := by
  have hrec := recorded_of_stored h
  clear h
  induction calls using List.reverseRecOn with
  | nil => exact absurd hrec not_recorded_nil
  | append_singleton calls last ih =>
    rcases recorded_snoc.mp hrec with hold | ⟨hb, hid⟩
    · obtain ⟨pre, call, post, rfl, hb, hid⟩ := ih hold
      exact ⟨pre, call, post ++ [last], by simp, hb, hid⟩
    · exact ⟨calls, last, [], rfl, hb, hid⟩

/-- A stored id is the digest of an input of the run. -/
theorem Stored.exists_hashInput {calls : List Call} {p : CommitId} (h : (run calls).Stored p) :
    ∃ x ∈ hashInputsFrom init calls, p = ⟨Blake3.deriveKey commitContext x⟩ := by
  obtain ⟨c, hc⟩ := h
  have hrec := recorded_of_stored hc
  exact ⟨hashInput c, hrec.hashInput_mem, congrArg Id.mk hrec.id_eq.2⟩

/-- The digest of every input of the run is stored. -/
theorem stored_of_hashInput_mem {calls : List Call} {x : List UInt8}
    (h : x ∈ hashInputsFrom init calls) :
    (run calls).Stored ⟨Blake3.deriveKey commitContext x⟩ := by
  induction calls using List.reverseRecOn with
  | nil => cases h
  | append_singleton calls call ih =>
    rw [hashInputsFrom_append, List.mem_append] at h
    rcases h with h | h
    · exact (ih h).run_append [call]
    · change x ∈ (((run calls).built call).toList.map hashInput) ++ [] at h
      rw [List.append_nil, List.mem_map] at h
      obtain ⟨c, hc, rfl⟩ := h
      have hb : (run calls).built call = some c := Option.mem_toList.mp hc
      rcases step_cases (run calls) call with ⟨hnone, -, -⟩ | ⟨d, hd, -, hs⟩
      · rw [hnone] at hb
        cases hb
      · rw [hb] at hd
        obtain rfl := Option.some.inj hd
        rw [run_snoc, hs, stored_append]
        exact Or.inl (built_id hb).symm

theorem Stored.bytes_ne_zero {calls : List Call} {p : CommitId} (h : (run calls).Stored p)
    (hz : NoZeros calls) : p.bytes ≠ Vector.replicate 32 0 := by
  obtain ⟨x, hx, rfl⟩ := h.exists_hashInput
  exact hz x hx

/-- What a commit mentions was stored before it was built. -/
theorem stored_of_mentions {pre post : List Call} {call : Call} {c : Commit} {p : CommitId}
    (hb : (run pre).built call = some c) (hm : Mentions c p) (hz : NoZeros (pre ++ call :: post))
    (hf : NoForesight (pre ++ call :: post)) (hp : (run (pre ++ call :: post)).Stored p) :
    (run pre).Stored p := by
  obtain ⟨hparent, -⟩ := built_parents hb
  rcases hm with hm | ⟨m, hm⟩
  · cases hc : c.parent with
    | none =>
      rw [hc, parentBytes] at hm
      exact absurd hm.symm (hp.bytes_ne_zero hz)
    | some q =>
      rw [hc, parentBytes] at hm
      have hq : q = p := by
        cases q
        cases p
        exact congrArg Id.mk hm
      exact (wellFormed_run pre).heads _ p (hparent.symm.trans (hq ▸ hc))
  · cases call with
    | commit message author snapshot now =>
      obtain rfl := Option.some.inj hb
      obtain ⟨x, hx, rfl⟩ := hp.exists_hashInput
      exact stored_of_hashInput_mem (hf pre message author snapshot now post m x rfl hx hm)
    | branch name => cases hb
    | checkout name => cases hb
    | merge other strategy now =>
      obtain ⟨_, otherHead, _, _, _, ho, _, _, _, rfl⟩ := newMerge_eq_ok.mp (built_merge.mp hb)
      have hq : otherHead = p := Id.eq_of_append_toHex hm
      exact (wellFormed_run pre).heads other p (hq ▸ ho)

/-- What a stored commit mentions is stored earlier, so ids can be ranked by age. -/
theorem exists_rank (calls : List Call) (hn : NoCollisions calls) (hz : NoZeros calls)
    (hf : NoForesight calls) : ∃ rank : CommitId → Nat,
      (∀ id, (run calls).Stored id → rank id ≤ calls.length) ∧
      ∀ (id p : CommitId) (c : Commit), (run calls).commits[id]? = some c → (run calls).Stored p →
        Mentions c p → rank p < rank id := by
  induction calls using List.reverseRecOn with
  | nil =>
    refine ⟨fun _ => 0, fun _ _ => le_rfl, fun id p c hc => ?_⟩
    simp [init] at hc
  | append_singleton calls call ih =>
    obtain ⟨rank, hbound, hrank⟩ := ih hn.of_append hz.of_append hf.of_append
    have hstep := step_cases (run calls) call
    rcases hstep with ⟨-, hs, -⟩ | ⟨new, hb, -, hs⟩
    · have hcommits : (run (calls ++ [call])).commits = (run calls).commits := by
        rw [run_snoc, hs]
      simp only [Stored, hcommits]
      refine ⟨rank, fun id hid => ?_, hrank⟩
      have := hbound id hid
      rw [List.length_append, List.length_singleton]
      omega
    · have hstored : ∀ p, (run (calls ++ [call])).Stored p ↔ p = new.id ∨ (run calls).Stored p := by
        intro p
        rw [run_snoc, hs, stored_append]
      have hget : ∀ id : CommitId, (run (calls ++ [call])).commits[id]? =
          if new.id = id then some new else (run calls).commits[id]? := by
        intro id
        rw [run_snoc, hs, append, BTreeMap.get_insert]
      -- A commit of the longer run mentions only what the shorter run stored.
      have hmentioned : ∀ (id p : CommitId) (c : Commit),
          (run (calls ++ [call])).commits[id]? = some c → (run (calls ++ [call])).Stored p →
          Mentions c p → (run calls).Stored p := by
        intro id p c hc hp hm
        obtain ⟨pre, made, post, hcalls, hbuilt, -⟩ := exists_built hc
        rw [hcalls] at hz hf hp
        have hpre := stored_of_mentions hbuilt hm hz hf hp
        rcases List.eq_nil_or_concat post with rfl | ⟨post, last, rfl⟩
        · obtain ⟨rfl, -⟩ := List.append_inj' hcalls rfl
          exact hpre
        · rw [List.concat_eq_append, ← List.cons_append, ← List.append_assoc] at hcalls
          obtain ⟨rfl, -⟩ := List.append_inj' hcalls rfl
          exact hpre.run_append _
      by_cases hold : (run calls).Stored new.id
      · -- The id was taken by a commit with the same hash input, which ranks the same.
        have hsame : ∀ p, (run (calls ++ [call])).Stored p ↔ (run calls).Stored p := by
          intro p
          rw [hstored]
          constructor
          · intro h
            rcases h with rfl | h
            · exact hold
            · exact h
          · exact Or.inr
        refine ⟨rank, fun id hid => ?_, fun id p c hc hp hm => ?_⟩
        · have := hbound id ((hsame id).mp hid)
          rw [List.length_append, List.length_singleton]
          omega
        · have hp' := hmentioned id p c hc hp hm
          rw [hget] at hc
          by_cases hid : new.id = id
          · rw [if_pos hid] at hc
            obtain rfl := Option.some.inj hc
            obtain ⟨d, hd⟩ := hold
            have hd' := recorded_of_stored hd
            have hnew : Recorded (calls ++ [call]) new.id new :=
              recorded_snoc.mpr (Or.inr ⟨hb, rfl⟩)
            have hin : hashInput new = hashInput d := by
              apply hn _ hnew.hashInput_mem _ (recorded_snoc.mpr (Or.inl hd')).hashInput_mem
              rw [← hnew.id_eq.2, ← hd'.id_eq.2]
            exact hid ▸ hrank new.id p d hd hp' (hm.of_hashInput_eq hin)
          · rw [if_neg hid] at hc
            exact hrank id p c hc hp' hm
      · -- The id is new, so the commit ranks above everything stored.
        have hlow : ∀ p, (run calls).Stored p →
            Function.update rank new.id (calls.length + 1) p = rank p := by
          intro p hp
          have hne : p ≠ new.id := fun h => hold (h ▸ hp)
          exact Function.update_of_ne hne _ _
        refine ⟨Function.update rank new.id (calls.length + 1), fun id hid => ?_,
          fun id p c hc hp hm => ?_⟩
        · rw [List.length_append, List.length_singleton]
          rcases (hstored id).mp hid with rfl | hid
          · rw [Function.update_self]
          · rw [hlow id hid]
            have := hbound id hid
            omega
        · have hp' := hmentioned id p c hc hp hm
          rw [hlow p hp']
          rw [hget] at hc
          by_cases hid : new.id = id
          · subst hid
            rw [Function.update_self]
            have := hbound p hp'
            omega
          · rw [if_neg hid] at hc
            rw [hlow id ⟨c, hc⟩]
            exact hrank id p c hc hp' hm

/-- In every reachable store nothing dangles, no commit is its own ancestor, and a failed call
changes nothing. -/
theorem reachable_wellFormed (calls : List Call) (hn : NoCollisions calls) (hz : NoZeros calls)
    (hf : NoForesight calls) :
    (run calls).WellFormed ∧ (run calls).Acyclic ∧
      ∀ call e s', (Mutating.call call).run (run calls) = (.error e, s') → s' = run calls := by
  refine ⟨wellFormed_run calls, ?_, fun call e s' h => unchanged_of_error h⟩
  obtain ⟨rank, -, hrank⟩ := exists_rank calls hn hz hf
  apply acyclic_of_rank rank
  intro id p hp
  have hstored := (wellFormed_run calls).parents id p hp
  obtain ⟨c, hc, hparent⟩ := hp
  exact hrank id p c hc hstored (mentions_parent hparent)

end

/-- An ontology with one node. -/
private def oneNode : Ontology := Ontology.empty.upsertNode ⟨.filled 1, none, ["Organization"], ∅⟩

/-- Short messages spell out no digest. -/
private theorem noForesight_of_short [Blake3] [SerdeJson] {calls : List Call}
    (h : ∀ message author snapshot now, .commit message author snapshot now ∈ calls →
      message.toList.length < 64) : NoForesight calls := by
  intro pre message author snapshot now post m x hcalls _ hmessage
  have hshort := h message author snapshot now (by rw [hcalls]; simp)
  have hlong : (Hex.encode (Blake3.deriveKey commitContext x).toList).toList.length = 64 := by
    rw [Hex.length_encode, Vector.length_toList]
  rw [hmessage, String.toList_append, List.length_append, hlong] at hshort
  omega

/-- Two branches, commits on both, and their merge. -/
private def mergedRun : List Call :=
  [.commit "root" "ann" oneNode .epoch, .branch "feature", .commit "update" "ann" oneNode .epoch,
    .checkout "feature", .commit "feature" "bob" oneNode .epoch, .branch "feature",
    .checkout "main", .merge "feature" .union .epoch]

/-- Nothing dangles and no commit is its own ancestor after a merge of two branches and a
failed call. -/
theorem reachable_wellFormed_merged : (@run Blake3.ofLength .plain mergedRun).WellFormed ∧
    (@run Blake3.ofLength .plain mergedRun).Acyclic := by
  let _ := Blake3.ofLength
  let _ := SerdeJson.plain
  have hshort : ∀ message author snapshot now, .commit message author snapshot now ∈ mergedRun →
      message.toList.length < 64 := by
    intro message author snapshot now hmem
    simp only [mergedRun, List.mem_cons, Call.commit.injEq, List.not_mem_nil, reduceCtorEq,
      or_false, false_or] at hmem
    rcases hmem with ⟨rfl, -⟩ | ⟨rfl, -⟩ | ⟨rfl, -⟩
    · decide
    · decide
    · decide
  obtain ⟨hwell, hacyclic, -⟩ := @reachable_wellFormed Blake3.ofLength .plain mergedRun
    (by unfold NoCollisions; decide +kernel) (by unfold NoZeros; decide +kernel)
    (noForesight_of_short hshort)
  exact ⟨hwell, hacyclic⟩

end VersionedStore

end AtomrOntology
