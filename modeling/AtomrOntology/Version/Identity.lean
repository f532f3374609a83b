import AtomrOntology.Version.History

/-!
# What the id of a commit identifies

The hash input keeps the bytes of a parent, the message with what a merge appends to it, and
the text of the snapshot. It loses whether a parent of zero bytes is there at all, whether
a merge or the message itself brought in what looks like a second parent, and everything
about a snapshot that holds a node, an edge or an axiom.
-/

namespace AtomrOntology

namespace VersionedStore

/-- What the id of a commit is documented to identify. -/
structure SameContent (c d : Commit) : Prop where
  parent : c.parent = d.parent
  secondParent : c.secondParent = d.secondParent
  message : c.message = d.message
  snapshot : c.snapshot = d.snapshot

/-- Parents that are hashed alike: the same, or none and the id of zero bytes. -/
def ParentsAlike (p q : Option CommitId) : Prop :=
  p = q ∨ (p = none ∧ q = some (.filled 0)) ∨ (p = some (.filled 0) ∧ q = none)

/-- A message that reads like the message of a merge together with its second parent. -/
def Impersonates (c d : Commit) : Prop :=
  c.secondParent = none ∧ ∃ p, d.secondParent = some p ∧
    c.message = d.message ++ "\x00merge-with:" ++ p.toHex

/-- Messages that are hashed alike. -/
def MessagesAlike (c d : Commit) : Prop :=
  (c.message = d.message ∧ c.secondParent = d.secondParent) ∨ Impersonates c d ∨ Impersonates d c

/-- Two commits that hashing does not tell apart. -/
structure Alike (c d : Commit) : Prop where
  parents : ParentsAlike c.parent d.parent
  messages : MessagesAlike c d
  snapshots : SameText c.snapshot d.snapshot

theorem parentBytes_eq_iff {p q : Option CommitId} :
    parentBytes p = parentBytes q ↔ ParentsAlike p q := by
  have hid : ∀ {a b : CommitId}, a.bytes = b.bytes ↔ a = b := by
    intro a b
    cases a
    cases b
    simp
  have hzero : ∀ {a : CommitId}, a.bytes = Vector.replicate 32 0 ↔ a = .filled 0 := by
    intro a
    exact hid (b := .filled 0)
  unfold ParentsAlike
  cases p with
  | none =>
    cases q with
    | none => simp
    | some q => simp [parentBytes, ← hzero, eq_comm]
  | some p =>
    cases q with
    | none => simp [parentBytes, ← hzero]
    | some q => simp [parentBytes, hid]

theorem hashedMessage_eq_iff {c d : Commit} :
    hashedMessage c.secondParent c.message = hashedMessage d.secondParent d.message ↔
      MessagesAlike c d := by
  unfold MessagesAlike Impersonates
  cases hc : c.secondParent with
  | none =>
    cases hd : d.secondParent with
    | none => simp [hashedMessage]
    | some q => simp [hashedMessage]
  | some p =>
    cases hd : d.secondParent with
    | none => simp [hashedMessage, eq_comm]
    | some q =>
      simp only [hashedMessage, Option.some.injEq, reduceCtorEq, false_and, or_false]
      constructor
      · intro h
        obtain rfl := Id.eq_of_append_toHex h
        have hm := congrArg String.toList h
        simp only [String.toList_append, List.append_assoc] at hm
        exact ⟨String.toList_inj.mp (List.append_cancel_right hm), rfl⟩
      · intro h
        rw [h.1, h.2]

section

variable [SerdeJson]

/-- Equal hash inputs mean no more than alike commits. -/
theorem hashInput_eq_iff {c d : Commit} : hashInput c = hashInput d ↔ Alike c d := by
  rw [hashInput, hashInput, computeIdInput_eq_iff, parentBytes_eq_iff, hashedMessage_eq_iff]
  exact ⟨fun h => ⟨h.1, h.2.1, h.2.2⟩, fun h => ⟨h.parents, h.messages, h.snapshots⟩⟩

variable [Blake3]

/-- Without a digest collision on their inputs, the ids of two commits identify what they are
documented to identify exactly unless the commits are alike without being the same. -/
theorem commit_ids_identify_iff {s s' : VersionedStore} {call call' : Call} {c d : Commit}
    (hc : s.built call = some c) (hd : s'.built call' = some d)
    (hinj : Set.InjOn (Blake3.deriveKey commitContext) {hashInput c, hashInput d}) :
    (c.id = d.id → SameContent c d) ↔ ¬(Alike c d ∧ ¬SameContent c d) := by
  have hids : c.id = d.id ↔ Alike c d := by
    rw [← hashInput_eq_iff, built_id hc, built_id hd]
    constructor
    · intro h
      exact hinj (Or.inl rfl) (Or.inr rfl) (congrArg Id.bytes h)
    · intro h
      exact congrArg (fun input => (⟨Blake3.deriveKey commitContext input⟩ : CommitId)) h
  rw [hids]
  tauto

end

/-- An ontology with one node and an IRI. -/
private def revision (iri : String) : Ontology :=
  { Ontology.empty.upsertNode ⟨.filled 1, none, ["Organization"], ∅⟩ with iri := some ⟨iri⟩ }

private theorem revision_not_bare (iri : String) : ¬(revision iri).isBare := by
  have hmem : (revision iri).nodes[(.filled 1 : NodeId)]? =
      some ⟨.filled 1, none, ["Organization"], ∅⟩ := by
    simp [revision, Ontology.upsertNode]
  intro h
  simp only [Ontology.isBare, Bool.and_eq_true, Std.ExtTreeMap.isEmpty_iff] at h
  rw [h.1.1] at hmem
  simp at hmem

/-- Two first commits with one message and different snapshots get one id from every digest. -/
theorem commit_ids_collide : revision "urn:v0" ≠ revision "urn:v1" ∧
    ∀ (_ : Blake3) (_ : SerdeJson),
      (init.newCommit "root" "ann" (revision "urn:v0") .epoch).id =
        (init.newCommit "root" "ann" (revision "urn:v1") .epoch).id := by
  constructor
  · intro h
    have hiri : some (Iri.mk "urn:v0") = some ⟨"urn:v1"⟩ := congrArg Ontology.iri h
    simp at hiri
  · intro _ _
    have halike : Alike (init.newCommit "root" "ann" (revision "urn:v0") .epoch)
        (init.newCommit "root" "ann" (revision "urn:v1") .epoch) :=
      ⟨Or.inl rfl, Or.inl ⟨rfl, rfl⟩, Or.inr ⟨revision_not_bare _, revision_not_bare _⟩⟩
    exact congrArg (fun input => (⟨Blake3.deriveKey commitContext input⟩ : CommitId))
      (hashInput_eq_iff.mpr halike)

/-- Commits with different messages have different ids. -/
theorem commit_ids_identify_messages : let _ := Blake3.ofLength
    let _ := SerdeJson.plain
    (init.newCommit "root" "ann" .empty .epoch).id ≠
      (init.newCommit "second" "ann" .empty .epoch).id := by
  intro _ _ hid
  have hdigest :
    Blake3.deriveKey commitContext (hashInput (init.newCommit "root" "ann" .empty .epoch)) ≠
      Blake3.deriveKey commitContext (hashInput (init.newCommit "second" "ann" .empty .epoch)) := by
    decide +kernel
  have hmessage : (init.newCommit "root" "ann" .empty .epoch).message ≠
      (init.newCommit "second" "ann" .empty .epoch).message := by decide
  have hinj : Set.InjOn (Blake3.deriveKey commitContext)
      {hashInput (init.newCommit "root" "ann" .empty .epoch),
        hashInput (init.newCommit "second" "ann" .empty .epoch)} := by
    intro x hx y hy hxy
    obtain rfl | rfl := hx <;> obtain rfl | rfl := hy
    · rfl
    · exact absurd hxy hdigest
    · exact absurd hxy.symm hdigest
    · rfl
  have hsame := (@commit_ids_identify_iff _ _ init init (.commit "root" "ann" .empty .epoch)
    (.commit "second" "ann" .empty .epoch) _ _ rfl rfl hinj).mpr
  refine hmessage (hsame (fun h => ?_) hid).message
  obtain ⟨⟨-, hm, -⟩, -⟩ := h
  obtain h | h | h := hm
  · exact hmessage h.1
  · obtain ⟨-, p, hp, -⟩ := h
    cases hp
  · obtain ⟨-, p, hp, -⟩ := h
    cases hp

end VersionedStore

end AtomrOntology
