import AtomrOntology.Version.Lineage

/-!
# The JSON form of a versioned store

The derived codecs of ontologies, commits and stores. A map is an object whose keys are
texts, and an id serializes as bytes, which are none: the maps keyed by ids can only be
written while they are empty. A commit id is read through a borrowed slice, which the
array of numbers written for it cannot lend.
-/

namespace AtomrOntology

/-- A map as an object: it is written if every key has a text and every value a JSON form. -/
def writeMap {κ ν : Type} [Ord κ] [Std.TransOrd κ] (key : κ → Option String)
    (value : ν → Option Json) (m : BTreeMap κ ν) : Option Json := do
  let entries ← m.toList.mapM fun kv => do
    let k ← key kv.1
    let v ← value kv.2
    return (k, v)
  return .obj entries

/-- A map from an object; of two entries with one key the later one stays. -/
def readMap {κ ν : Type} [Ord κ] [Std.TransOrd κ] (key : String → De κ) (value : Json → De ν) :
    Json → De (BTreeMap κ ν)
  | .obj entries => do
    let kvs ← entries.mapM fun kv => do
      let k ← key kv.1
      let v ← value kv.2
      return (k, v)
    return Std.ExtTreeMap.ofList kvs compare
  | _ => .error .invalidType

/-- A struct from an object that repeats none of its fields. -/
def readStruct {α : Type} (names : List String) (read : (String → Option Json) → De α) :
    Json → De α
  | .obj entries =>
    if ((entries.map Prod.fst).filter (· ∈ names)).Nodup then read fun n => entries.lookup n
    else .error .duplicateField
  | _ => .error .invalidType

/-- A field that must be present. -/
def readRequired {α : Type} (get : String → Option Json) (name : String) (read : Json → De α) :
    De α :=
  match get name with
  | some j => read j
  | none => .error (.missingField name)

/-- A field that is absent when missing or `null`. -/
def readOptional {α : Type} (get : String → Option Json) (name : String) (read : Json → De α) :
    De (Option α) :=
  match get name with
  | none => .ok none
  | some .null => .ok none
  | some j => some <$> read j

/-- The text of a byte sequence as a map key: `serialize_bytes` refuses to write one. -/
def byteKey {kind : IdKind} (_ : Id kind) : Option String := none

/-- A key that is read like an id. -/
def readIdKey {kind : IdKind} (key : String) : De (Id kind) := Codec.id.de (.str key)

/-- `&[u8]`: only a string without escapes lends its bytes. -/
def readBorrowed : Json → De (List UInt8)
  | .str s =>
    if s.toList.all fun c => Json.escapeChar c = [c] then .ok (utf8 s) else .error .invalidType
  | _ => .error .invalidType

/-- How a commit id is read. -/
def readCommitId (j : Json) : De CommitId := do
  let buf ← readBorrowed j
  match Bytes32.ofList? buf with
  | some b => pure ⟨b⟩
  | none => .error .invalidValue

/-- How a commit id is written. -/
def writeCommitId (id : CommitId) : Json := Codec.bytes.ser id.bytes.toList

/-- An optional value, `null` when absent. -/
def writeOption {α : Type} (write : α → Json) : Option α → Json
  | some x => write x
  | none => .null

section

variable [SerdeJson] [Chrono]

/-- The derived `Deserialize` of an ontology. -/
def Ontology.de : Json → De Ontology :=
  readStruct ["iri", "vocabulary", "schema", "nodes", "edges", "axioms"] fun get => do
    let iri ← readOptional get "iri" Codec.iri.de
    let vocabulary ← readRequired get "vocabulary" Vocabulary.codec.de
    let schema ← readRequired get "schema" Schema.codec.de
    let nodes ← readRequired get "nodes" (readMap readIdKey Node.codec.de)
    let edges ← readRequired get "edges" (readMap readIdKey Edge.codec.de)
    let axioms ← readRequired get "axioms" (readMap readIdKey Axiom.codec.de)
    return ⟨iri, vocabulary, schema, nodes, edges, axioms⟩

/-- The derived `Serialize` of a commit. -/
def Commit.ser (c : Commit) : Option Json := do
  let snapshot ← c.snapshot.ser
  return .obj [("id", writeCommitId c.id), ("parent", writeOption writeCommitId c.parent),
    ("second_parent", writeOption writeCommitId c.secondParent), ("message", .str c.message),
    ("author", .str c.author), ("timestamp", Codec.dateTime.ser c.timestamp),
    ("snapshot", snapshot), ("activity", writeOption Codec.id.ser c.activity)]

/-- The derived `Deserialize` of a commit. -/
def Commit.de : Json → De Commit :=
  readStruct ["id", "parent", "second_parent", "message", "author", "timestamp", "snapshot",
      "activity"] fun get => do
    let id ← readRequired get "id" readCommitId
    let parent ← readOptional get "parent" readCommitId
    let secondParent ← readOptional get "second_parent" readCommitId
    let message ← readRequired get "message" Codec.string.de
    let author ← readRequired get "author" Codec.string.de
    let timestamp ← readRequired get "timestamp" Codec.dateTime.de
    let snapshot ← readRequired get "snapshot" Ontology.de
    let activity ← readOptional get "activity" Codec.id.de
    return ⟨id, parent, secondParent, message, author, timestamp, snapshot, activity⟩

namespace VersionedStore

/-- The derived `Serialize`. -/
def ser (s : VersionedStore) : Option Json := do
  let commits ← writeMap byteKey Commit.ser s.commits
  let branches ← writeMap some (some ∘ writeCommitId) s.branches
  return .obj [("commits", commits), ("branches", branches), ("current", .str s.current)]

/-- The derived `Deserialize`. -/
def de : Json → De VersionedStore :=
  readStruct ["commits", "branches", "current"] fun get => do
    let commits ← readRequired get "commits"
      (readMap (fun key => readCommitId (.str key)) Commit.de)
    let branches ← readRequired get "branches" (readMap (fun name => .ok name) readCommitId)
    let current ← readRequired get "current" Codec.string.de
    return ⟨commits, branches, current⟩

/-- The store is written, and what is written reads back as the same store. -/
def Persists (s : VersionedStore) : Prop :=
  ∃ j j', s.ser = some j ∧ j.reparse = .ok j' ∧ de j' = .ok s

omit [SerdeJson] [Chrono] in
/-- A map keyed by bytes is written only while it is empty. -/
theorem writeMap_byteKey {kind : IdKind} {ν : Type} {value : ν → Option Json}
    {m : BTreeMap (Id kind) ν} {j : Json} (h : writeMap byteKey value m = some j) : m = ∅ := by
  unfold writeMap at h
  cases hm : m.toList with
  | nil => exact Std.ExtTreeMap.toList_eq_nil_iff.mp hm
  | cons kv kvs =>
    rw [hm] at h
    simp [byteKey] at h

/-- A store that persists holds no commit. -/
theorem Persists.commits_eq {s : VersionedStore} (h : s.Persists) : s.commits = ∅ := by
  obtain ⟨j, j', hj, -, -⟩ := h
  unfold ser at hj
  obtain ⟨commits, hcommits, -⟩ := Option.bind_eq_some_iff.mp hj
  exact writeMap_byteKey hcommits

omit [SerdeJson] [Chrono] in
@[simp] theorem writeMap_empty {κ ν : Type} [Ord κ] [Std.TransOrd κ] {key : κ → Option String}
    {value : ν → Option Json} : writeMap key value ∅ = some (.obj []) := by
  have hlist : (∅ : BTreeMap κ ν).toList = [] := Std.ExtTreeMap.toList_eq_nil_iff.mpr rfl
  rw [writeMap, hlist]
  rfl

/-- The text of the initial store. -/
private def initJson : Json :=
  .obj [("commits", .obj []), ("branches", .obj []), ("current", .str "main")]

private theorem de_initJson : de initJson = .ok init := rfl

/-- The store without commits persists. -/
theorem persists_init : init.Persists := by
  have hser : init.ser = some initJson := by
    unfold ser
    simp [init, initJson]
  have hread : initJson.reparse = .ok initJson := rfl
  exact ⟨initJson, initJson, hser, hread, de_initJson⟩

end VersionedStore

end

namespace VersionedStore

/-- Whether a call is a `commit`. -/
def Call.isCommit : Call → Bool
  | .commit .. => true
  | _ => false

variable [Blake3] [SerdeJson]

/-- Before the first commit every other call fails. -/
theorem step_init {call : Call} (h : ¬call.isCommit) : (init.step call).2 = init := by
  cases call with
  | commit message author snapshot now => exact absurd rfl h
  | branch name =>
    have hbranch : init.branch name = .error (.emptyCurrentBranch "main") := by
      simp [VersionedStore.branch, init, headId]
    simp only [step, hbranch]
  | checkout name =>
    have hcheckout : init.checkout name = .error (.unknownBranch name) := by
      simp [VersionedStore.checkout, init]
    simp only [step, hcheckout]
  | merge other strategy now =>
    cases hmerge : init.newMerge other strategy now with
    | error e => simp only [step, merge, hmerge, Bind.bind, Except.bind]
    | ok c =>
      obtain ⟨_, _, _, _, hhead, -⟩ := newMerge_eq_ok.mp hmerge
      simp [headId, init] at hhead

theorem run_eq_init {calls : List Call} (h : ∀ call ∈ calls, ¬call.isCommit) : run calls =
    init := by
  induction calls using List.reverseRecOn with
  | nil => rfl
  | append_singleton calls call ih =>
    have hcalls : run calls = init := ih fun c hc => h c (List.mem_append_left _ hc)
    rw [run_snoc, hcalls]
    exact step_init (h call (by simp))

/-- A commit leaves a stored commit behind, whatever follows. -/
theorem exists_stored_of_commit {calls : List Call} {call : Call} (h : call ∈ calls)
    (hcommit : call.isCommit) : ∃ id, (run calls).Stored id := by
  obtain ⟨pre, post, rfl⟩ := List.append_of_mem h
  cases call with
  | commit message author snapshot now =>
    have hstored : (run (pre ++ [.commit message author snapshot now])).Stored
        ((run pre).newCommit message author snapshot now).id := by
      rw [run_snoc]
      exact stored_append.mpr (Or.inl rfl)
    have hrun := hstored.run_append post
    rw [List.append_assoc, List.singleton_append] at hrun
    exact ⟨_, hrun⟩
  | branch name => cases hcommit
  | checkout name => cases hcommit
  | merge other strategy now => cases hcommit

variable [Chrono]

/-- A reachable store persists exactly when nothing was ever committed to it. -/
theorem persists_run_iff (calls : List Call) :
    (run calls).Persists ↔ ∀ call ∈ calls, ¬call.isCommit := by
  constructor
  · intro h call hcall hcommit
    obtain ⟨id, c, hc⟩ := exists_stored_of_commit hcall hcommit
    rw [h.commits_eq] at hc
    simp at hc
  · intro h
    rw [run_eq_init h]
    exact persists_init

end VersionedStore

namespace VersionedStore

/-- A digest that maps everything to one id. -/
private abbrev constantHash : Blake3 := ⟨fun _ _ => Vector.replicate 32 1⟩

/-- One commit of the empty ontology cannot be written. -/
theorem one_commit_does_not_persist :
    ¬@Persists .plain .plain (@run constantHash .plain [.commit "root" "ann" .empty .epoch]) := by
  let _ := constantHash
  let _ := SerdeJson.plain
  intro h
  have hempty := @Persists.commits_eq .plain .plain _ h
  have hsize : (run [.commit "root" "ann" .empty .epoch]).commits.isEmpty = false := by
    decide +kernel
  rw [hempty] at hsize
  cases hsize

end VersionedStore

end AtomrOntology
