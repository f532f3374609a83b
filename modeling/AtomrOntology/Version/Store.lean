import AtomrOntology.Version.Commit

/-!
# The versioned store

Branchable history over ontology snapshots: a table of commits by id, a table of
branch heads and the name of the current branch.
-/

namespace AtomrOntology

/-- Why an operation of the versioned store fails. -/
inductive VersionError where
  | unknownBranch (name : String)
  | unknownCommit (id : CommitId)
  | branchExists (name : String)
  | nothingToMerge (name : String)
  | emptyCurrentBranch (name : String)
  | selfMerge (name : String)
deriving DecidableEq

/-- How to combine two snapshots when merging branches. -/
inductive MergeStrategy where
  | ours
  | theirs
  | union
deriving DecidableEq, Repr

/-- Keep every entry of the first map and add the second's entries under new keys. -/
def unionOurs {κ ν : Type} [Ord κ] [Std.TransOrd κ] (ours theirs : BTreeMap κ ν) :
    BTreeMap κ ν :=
  theirs.toList.foldl (fun m kv => m.insertIfNew kv.1 kv.2) ours

/-- Combine two snapshots: on collision the current side wins, and so do its IRI and
vocabulary. -/
def mergeSnapshots (ours theirs : Ontology) : MergeStrategy → Ontology
  | .ours => ours
  | .theirs => theirs
  | .union =>
    { ours with
      nodes := unionOurs ours.nodes theirs.nodes
      edges := unionOurs ours.edges theirs.edges
      axioms := unionOurs ours.axioms theirs.axioms
      schema :=
        { nodeTypes := unionOurs ours.schema.nodeTypes theirs.schema.nodeTypes
          edgeTypes := unionOurs ours.schema.edgeTypes theirs.schema.edgeTypes } }

/-- Branchable, time-travelable history. -/
structure VersionedStore where
  commits : BTreeMap CommitId Commit
  branches : BTreeMap String CommitId
  current : String

/-- The message a commit is hashed under: a merge commit's embeds its second parent. -/
def hashedMessage (secondParent : Option CommitId) (message : String) : String :=
  match secondParent with
  | some p => message ++ "\x00merge-with:" ++ p.toHex
  | none => message

/-- The id of a merge commit. -/
def computeIdWithSecondParent [Blake3] [SerdeJson] (parent secondParent : Option CommitId)
    (message : String) (snapshot : Ontology) : CommitId :=
  computeId parent (hashedMessage secondParent message) snapshot

namespace VersionedStore

/-- No commits yet, `main` checked out. -/
def init : VersionedStore := ⟨∅, ∅, "main"⟩

/-- The head of the current branch. -/
def headId (s : VersionedStore) : Option CommitId := s.branches[s.current]?

/-- The snapshot recorded at a commit. -/
def asOf (s : VersionedStore) (id : CommitId) : Option Ontology :=
  s.commits[id]?.map Commit.snapshot

/-- The commit with the given id. -/
def commitAt (s : VersionedStore) (id : CommitId) : Option Commit := s.commits[id]?

/-- Store a commit under its id and move the current branch to it. -/
def append (s : VersionedStore) (c : Commit) : VersionedStore :=
  { s with commits := s.commits.insert c.id c, branches := s.branches.insert s.current c.id }

/-- Fork the current head to a new branch. -/
def branch (s : VersionedStore) (name : String) : Except VersionError VersionedStore :=
  if s.branches.contains name then .error (.branchExists name)
  else match s.headId with
    | none => .error (.emptyCurrentBranch s.current)
    | some head => .ok { s with branches := s.branches.insert name head }

/-- Switch the current branch. -/
def checkout (s : VersionedStore) (name : String) : Except VersionError VersionedStore :=
  if s.branches.contains name then .ok { s with current := name }
  else .error (.unknownBranch name)

variable [Blake3] [SerdeJson]

/-- The commit that `commit` builds on the current head. -/
def newCommit (s : VersionedStore) (message author : String) (snapshot : Ontology)
    (now : DateTime) : Commit :=
  Commit.new s.headId none message author now snapshot none

/-- Append a commit to the current branch and advance its head. -/
def commit (s : VersionedStore) (message author : String) (snapshot : Ontology)
    (now : DateTime) : CommitId × VersionedStore :=
  let c := s.newCommit message author snapshot now
  (c.id, s.append c)

/-- The commit that `merge` builds from the two heads and their snapshots. -/
def mergeCommit (s : VersionedStore) (other : String) (currentHead otherHead : CommitId)
    (ours theirs : Ontology) (strategy : MergeStrategy) (now : DateTime) : Commit :=
  let merged := mergeSnapshots ours theirs strategy
  let message := "merge branch '" ++ other ++ "' into '" ++ s.current ++ "'"
  let commit := Commit.new (some currentHead) (some otherHead) message "merge" now merged none
  { commit with
    id := computeIdWithSecondParent commit.parent commit.secondParent commit.message
      commit.snapshot }

/-- The commit that `merge` stores, or why there is none. -/
def newMerge (s : VersionedStore) (other : String) (strategy : MergeStrategy) (now : DateTime) :
    Except VersionError Commit :=
  if other = s.current then .error (.selfMerge other)
  else match s.branches[other]? with
    | none => .error (.unknownBranch other)
    | some otherHead =>
      match s.headId with
      | none => .error (.emptyCurrentBranch s.current)
      | some currentHead =>
        match s.commits[currentHead]? with
        | none => .error (.unknownCommit currentHead)
        | some ours =>
          match s.commits[otherHead]? with
          | none => .error (.unknownCommit otherHead)
          | some theirs =>
            if currentHead = otherHead then .error (.nothingToMerge other)
            else .ok (s.mergeCommit other currentHead otherHead ours.snapshot theirs.snapshot
              strategy now)

/-- Merge another branch into the current one. -/
def merge (s : VersionedStore) (other : String) (strategy : MergeStrategy) (now : DateTime) :
    Except VersionError (CommitId × VersionedStore) := do
  let c ← s.newMerge other strategy now
  return (c.id, s.append c)

/-- A call on the store, with the clock reading it makes. -/
inductive Call where
  | commit (message author : String) (snapshot : Ontology) (now : DateTime)
  | branch (name : String)
  | checkout (name : String)
  | merge (other : String) (strategy : MergeStrategy) (now : DateTime)

/-- What a call returns and the store it leaves; a failed call leaves the store as it was. -/
def step (s : VersionedStore) : Call → Except VersionError (Option CommitId) × VersionedStore
  | .commit message author snapshot now =>
    let (id, s') := s.commit message author snapshot now
    (.ok (some id), s')
  | .branch name =>
    match s.branch name with
    | .ok s' => (.ok none, s')
    | .error e => (.error e, s)
  | .checkout name =>
    match s.checkout name with
    | .ok s' => (.ok none, s')
    | .error e => (.error e, s)
  | .merge other strategy now =>
    match s.merge other strategy now with
    | .ok (id, s') => (.ok (some id), s')
    | .error e => (.error e, s)

/-- The store after a run of calls from `init`. -/
def run (calls : List Call) : VersionedStore := calls.foldl (fun s c => (s.step c).2) init

@[simp] theorem run_nil : run [] = init := rfl

@[simp] theorem run_snoc (calls : List Call) (call : Call) :
    run (calls ++ [call]) = ((run calls).step call).2 := by
  simp [run]

/-- The commit a call builds, if it builds one. -/
def built (s : VersionedStore) : Call → Option Commit
  | .commit message author snapshot now => some (s.newCommit message author snapshot now)
  | .merge other strategy now => (s.newMerge other strategy now).toOption
  | _ => none

/-- All a call can do to the commits: nothing, or store the one commit it built, whose id
it then returns. -/
theorem step_cases (s : VersionedStore) (call : Call) :
    (s.built call = none ∧ (s.step call).2.commits = s.commits ∧
      ∀ id, (s.step call).1 ≠ .ok (some id)) ∨
    ∃ c, s.built call = some c ∧ (s.step call).1 = .ok (some c.id) ∧
      (s.step call).2 = s.append c := by
  cases call with
  | commit message author snapshot now => exact Or.inr ⟨_, rfl, rfl, rfl⟩
  | branch name =>
    left
    simp only [step, built, branch]
    split_ifs
    · simp
    · cases s.headId <;> simp
  | checkout name =>
    left
    simp only [step, built, checkout]
    split_ifs <;> simp
  | merge other strategy now =>
    simp only [step, built, merge]
    cases s.newMerge other strategy now with
    | error e => exact Or.inl ⟨rfl, rfl, by simp [Bind.bind, Except.bind]⟩
    | ok c => exact Or.inr ⟨c, rfl, rfl, rfl⟩

/-- A merge builds its commit exactly when both branches have different stored heads. -/
theorem newMerge_eq_ok {s : VersionedStore} {other : String} {strategy : MergeStrategy}
    {now : DateTime} {c : Commit} :
    s.newMerge other strategy now = .ok c ↔
      ∃ currentHead otherHead ours theirs, s.headId = some currentHead ∧
        s.branches[other]? = some otherHead ∧ s.commits[currentHead]? = some ours ∧
        s.commits[otherHead]? = some theirs ∧ currentHead ≠ otherHead ∧
        c = s.mergeCommit other currentHead otherHead ours.snapshot theirs.snapshot strategy
        now := by
  constructor
  · intro h
    unfold newMerge at h
    repeat' split at h
    all_goals first
      | exact ⟨_, _, _, _, ‹_›, ‹_›, ‹_›, ‹_›, ‹_›, (Except.ok.inj h).symm⟩
      | cases h
  · rintro ⟨currentHead, otherHead, ours, theirs, hc, ho, hours, htheirs, hne, rfl⟩
    have hother : other ≠ s.current := by
      rintro rfl
      rw [headId, ho, Option.some.injEq] at hc
      exact hne hc.symm
    simp only [newMerge, if_neg hother, ho, hc, hours, htheirs, if_neg hne]

theorem built_merge {s : VersionedStore} {other : String} {strategy : MergeStrategy}
    {now : DateTime} {c : Commit} :
    s.built (.merge other strategy now) = some c ↔ s.newMerge other strategy now = .ok c := by
  rw [built]
  cases s.newMerge other strategy now <;> simp [Except.toOption]

/-- Every call builds its commit under the digest of its parent, hashed message and
snapshot. -/
theorem built_id {s : VersionedStore} {call : Call} {c : Commit} (h : s.built call = some c) :
    c.id = computeId c.parent (hashedMessage c.secondParent c.message) c.snapshot := by
  cases call with
  | commit message author snapshot now =>
    obtain rfl := Option.some.inj h
    rfl
  | branch name => cases h
  | checkout name => cases h
  | merge other strategy now =>
    obtain ⟨_, _, _, _, _, _, _, _, _, rfl⟩ := newMerge_eq_ok.mp (built_merge.mp h)
    rfl

end VersionedStore

end AtomrOntology
