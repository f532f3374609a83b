import AtomrOntology.Actor.Minting
import AtomrOntology.Core.DebugText
import AtomrOntology.Core.Multimap

/-!
# Snapshot-diff projection

Remembers the rendered paths, the event keys and the pairs of actor and digest that it has
seen, and only projects items with new ones. A key is remembered before an id is minted.
-/

namespace AtomrOntology

namespace SnapshotDiff

section

variable {ι κ μ ε : Type} [Ord κ] [Std.TransOrd κ]

/-- The items with new keys and what is minted for them, until nothing can be minted for one. -/
def emitNew (key : ι → κ) (mint : Nat → ι → Except ε μ) :
    List ι → BTreeSet κ → Nat → Except ε (List (ι × μ)) × BTreeSet κ
  | [], seen, _ => (.ok [], seen)
  | item :: rest, seen, minted =>
    if seen.contains (key item) then emitNew key mint rest seen minted
    else
      match mint minted item with
      | .error e => (.error e, seen.insert (key item))
      | .ok m =>
        match emitNew key mint rest (seen.insert (key item)) (minted + 1) with
        | (.ok items, seen) => (.ok ((item, m) :: items), seen)
        | (.error e, seen) => (.error e, seen)

/-- The items with new keys, where nothing is minted. -/
def takeNew (key : ι → κ) : List ι → BTreeSet κ → List ι × BTreeSet κ
  | [], seen => ([], seen)
  | item :: rest, seen =>
    if seen.contains (key item) then takeNew key rest seen
    else
      let (items, seen) := takeNew key rest (seen.insert (key item))
      (item :: items, seen)

end

section

variable [Blake3] [DebugEscapes]

/-- What a `SnapshotDiffProjection` remembers. -/
structure SeenSets where
  paths : BTreeSet String
  events : BTreeSet (String × UInt64)
  stateDigests : BTreeSet (String × Option String)

/-- A projection that has seen nothing. -/
def SeenSets.empty : SeenSets := ⟨∅, ∅, ∅⟩

def eventKey (event : JournalEvent) : String × UInt64 := (event.actor.value, event.cursor.version)

def stateKey (state : SerializedState) : String × Option String := (state.actor.value, state.digest)

/-- The text that the id of a state node is made of. -/
def stateText (state : SerializedState) : String :=
  "state:" ++ state.actor.value ++ ":" ++ Debug.option state.digest

def stateId (state : SerializedState) : NodeId := Id.contentAddress (utf8 (stateText state))

/-- The node of a path. -/
def pathNode (ctx : ProjectionCtx) (path : SupervisionPath) (id : NodeId) (iri : Option Iri) :
    Node :=
  ((⟨id, iri, ["Actor"], ∅⟩ : Node).withProperty "path" (.string path.render)).withProperty
    "source_label" (.string ctx.sourceLabel)

/-- The node of a state blob. -/
def stateNode (ctx : ProjectionCtx) (state : SerializedState) : Node :=
  ⟨stateId state, none, ["ActorState"],
    .ofList [("actor_id", PropertyValue.string state.actor.value), ("state", .json state.payload),
      ("source_label", .string ctx.sourceLabel)] compare⟩

/-- The edges between successive events. -/
def successors : List NodeId → List Edge
  | prev :: id :: rest => .between prev "successor" id :: successors (id :: rest)
  | _ => []

variable (random : Nat → NodeId) (toRfc3339 : DateTime → String)

def newPaths (ctx : ProjectionCtx) (paths : List SupervisionPath) (seen : BTreeSet String) :
    Except IriError (List (SupervisionPath × NodeId × Option Iri)) × BTreeSet String :=
  emitNew SupervisionPath.render (fun n path => ctx.iri.mintActor (random n) path) paths seen 0

def newEvents (ctx : ProjectionCtx) (events : List JournalEvent) (seen : BTreeSet (String × UInt64))
    (minted : Nat) :
    Except IriError (List (JournalEvent × NodeId × Option Iri)) × BTreeSet (String × UInt64) :=
  emitNew eventKey (fun n event => ctx.iri.mintEvent (random n) event) events seen minted

/-- `SnapshotDiffProjection::project`, with what is remembered afterwards. -/
def project (seen : SeenSets) (batch : ActorBatch) (ctx : ProjectionCtx) :
    Except ProjectionError OntologyDelta × SeenSets :=
  match newPaths random ctx batch.paths seen.paths with
  | (.error e, paths) => (.error (.iri e), { seen with paths })
  | (.ok actors, paths) =>
    match newEvents random ctx batch.events seen.events actors.length with
    | (.error e, events) => (.error (.iri e), { seen with paths, events })
    | (.ok emitted, events) =>
      let (states, stateDigests) := takeNew stateKey batch.states seen.stateDigests
      (.ok ⟨actors.map (fun a => pathNode ctx a.1 a.2.1 a.2.2) ++
          (emitted.map (fun e => eventNode toRfc3339 ctx e.1 e.2.1 e.2.2) ++
            states.map (stateNode ctx)),
        successors (emitted.map fun e => e.2.1), []⟩, ⟨paths, events, stateDigests⟩)

end

section

variable {ι κ μ ε : Type} [Ord κ] [Std.TransOrd κ] [Std.LawfulEqOrd κ] {key : ι → κ}
  {mint : Nat → ι → Except ε μ} {items : List ι} {seen : BTreeSet κ} {minted : Nat}

theorem subset_emitNew {k : κ} (h : k ∈ seen) : k ∈ (emitNew key mint items seen minted).2 := by
  induction items generalizing seen minted with
  | nil => exact h
  | cons item rest ih =>
    rw [emitNew]
    have hinsert := BTreeSet.mem_insert.mpr (Or.inr h : k = key item ∨ k ∈ seen)
    split
    · exact ih h
    · split
      · exact hinsert
      · have hrest := @ih (seen.insert (key item)) (minted + 1) hinsert
        split
        · next heq =>
          rw [heq] at hrest
          exact hrest
        · next heq =>
          rw [heq] at hrest
          exact hrest

/-- When nothing can be minted for an item, its key is remembered all the same. -/
theorem exists_mark_of_error {e : ε} (h : (emitNew key mint items seen minted).1 = .error e) :
    ∃ k, k ∈ (emitNew key mint items seen minted).2 ∧ k ∉ seen := by
  induction items generalizing seen minted with
  | nil => cases h
  | cons item rest ih =>
    rw [emitNew] at h ⊢
    by_cases hseen : seen.contains (key item) = true
    · rw [if_pos hseen] at h ⊢
      exact ih h
    · rw [if_neg hseen] at h ⊢
      have hnew : key item ∉ seen := fun hmem => hseen (Std.ExtTreeSet.contains_iff_mem.mpr hmem)
      have hself : key item ∈ seen.insert (key item) := BTreeSet.mem_insert.mpr (Or.inl rfl)
      refine ⟨key item, ?_, hnew⟩
      split
      · exact hself
      · have hrest := @subset_emitNew _ _ _ _ _ _ _ key mint rest _ (minted + 1) _ hself
        split
        · next heq =>
          rw [heq] at hrest
          exact hrest
        · next heq =>
          rw [heq] at hrest
          exact hrest

/-- All new items are emitted exactly if an id can be minted for each of them. -/
theorem emitNew_ok_iff (can : κ → Prop)
    (hcan : ∀ n x, (∃ m, mint n x = .ok m) ↔ can (key x)) :
    (∃ r, (emitNew key mint items seen minted).1 = .ok r) ↔
      ∀ x ∈ items, key x ∉ seen → can (key x) := by
  induction items generalizing seen minted with
  | nil => simp [emitNew]
  | cons item rest ih =>
    rw [emitNew, List.forall_mem_cons]
    by_cases hseen : seen.contains (key item) = true
    · have hmem : key item ∈ seen := Std.ExtTreeSet.contains_iff_mem.mp hseen
      rw [if_pos hseen, ih, iff_and_self]
      exact fun _ hnew => absurd hmem hnew
    · have hnew : key item ∉ seen := fun hmem => hseen (Std.ExtTreeSet.contains_iff_mem.mpr hmem)
      rw [if_neg hseen]
      cases hmint : mint minted item with
      | error e =>
        constructor
        · intro h
          obtain ⟨r, hr⟩ := h
          cases hr
        · intro h
          obtain ⟨m, hm⟩ := (hcan minted item).mpr (h.1 hnew)
          rw [hmint] at hm
          cases hm
      | ok m =>
        have hitem : can (key item) := (hcan minted item).mp ⟨m, hmint⟩
        have hrest := @ih (seen.insert (key item)) (minted + 1)
        have hall : (∀ x ∈ rest, key x ∉ seen.insert (key item) → can (key x)) ↔
            (key item ∉ seen → can (key item)) ∧ ∀ x ∈ rest, key x ∉ seen → can (key x) := by
          constructor
          · refine fun h => ⟨fun _ => hitem, fun x hx hxnew => ?_⟩
            by_cases hkey : key x = key item
            · exact hkey ▸ hitem
            · refine h x hx fun hmem => ?_
              exact (BTreeSet.mem_insert.mp hmem).elim hkey hxnew
          · exact fun h x hx hxnew => h.2 x hx fun hmem =>
              hxnew (BTreeSet.mem_insert.mpr (Or.inr hmem))
        rw [← hall, ← hrest]
        dsimp only
        split
        · next heq => simp [heq]
        · next heq => simp [heq]

omit [Std.LawfulEqOrd κ] in
theorem mem_emitNew {r : List (ι × μ)} (h : (emitNew key mint items seen minted).1 = .ok r)
    {p : ι × μ} (hp : p ∈ r) : p.1 ∈ items ∧ ∃ n, mint n p.1 = .ok p.2 := by
  induction items generalizing seen minted r with
  | nil =>
    cases h
    cases hp
  | cons item rest ih =>
    rw [emitNew] at h
    split at h
    · obtain ⟨hmem, hmint⟩ := ih h hp
      exact ⟨List.mem_cons_of_mem _ hmem, hmint⟩
    · split at h
      · cases h
      · next m hmint =>
        split at h
        · next items' seen' heq =>
          cases h
          rcases List.mem_cons.mp hp with rfl | hp
          · exact ⟨List.mem_cons_self, minted, hmint⟩
          · obtain ⟨hmem, hmint⟩ := ih (congrArg Prod.fst heq) hp
            exact ⟨List.mem_cons_of_mem _ hmem, hmint⟩
        · cases h

/-- Every new key of the items is the key of an item that is emitted. -/
theorem exists_mem_emitNew {r : List (ι × μ)} (h : (emitNew key mint items seen minted).1 = .ok r)
    {x : ι} (hx : x ∈ items) (hnew : key x ∉ seen) : ∃ p ∈ r, key p.1 = key x := by
  induction items generalizing seen minted r with
  | nil => cases hx
  | cons item rest ih =>
    rw [emitNew] at h
    split at h
    · next hseen =>
      rcases List.mem_cons.mp hx with rfl | hx
      · exact absurd (Std.ExtTreeSet.contains_iff_mem.mp hseen) hnew
      · exact ih h hx hnew
    · split at h
      · cases h
      · split at h
        · next items' seen' heq =>
          cases h
          by_cases hkey : key x = key item
          · exact ⟨_, List.mem_cons_self, hkey.symm⟩
          · rcases List.mem_cons.mp hx with rfl | hx
            · exact absurd rfl hkey
            · have hnew' : key x ∉ seen.insert (key item) := by
                rw [BTreeSet.mem_insert]
                exact fun hmem => hmem.elim hkey hnew
              obtain ⟨p, hp, hpx⟩ := ih (congrArg Prod.fst heq) hx hnew'
              exact ⟨p, List.mem_cons_of_mem _ hp, hpx⟩
        · cases h

theorem mem_takeNew_seen {k : κ} : k ∈ (takeNew key items seen).2 ↔
    k ∈ seen ∨ ∃ x ∈ items, key x = k := by
  induction items generalizing seen with
  | nil => simp [takeNew]
  | cons item rest ih =>
    rw [takeNew, List.exists_mem_cons_iff]
    split
    · next hseen =>
      rw [ih]
      constructor
      · exact fun h => h.imp_right Or.inr
      · intro h
        obtain h | rfl | h := h
        · exact Or.inl h
        · exact Or.inl (Std.ExtTreeSet.contains_iff_mem.mp hseen)
        · exact Or.inr h
    · dsimp only
      rw [ih, BTreeSet.mem_insert, or_assoc, or_left_comm, eq_comm]

/-- The items that are taken are the first ones of their keys, where the keys are new. -/
theorem mem_takeNew [DecidableEq κ] {x : ι} : x ∈ (takeNew key items seen).1 ↔
    key x ∉ seen ∧ items.find? (fun y => key y = key x) = some x := by
  induction items generalizing seen with
  | nil => simp [takeNew]
  | cons item rest ih =>
    rw [takeNew, List.find?_cons]
    split
    · next hseen =>
      rw [ih]
      refine and_congr_right fun hnew => ?_
      have hne : key item ≠ key x := fun heq =>
        hnew (heq ▸ Std.ExtTreeSet.contains_iff_mem.mp hseen)
      simp [hne]
    · next hseen =>
      have hitem : key item ∉ seen := fun hmem => hseen (Std.ExtTreeSet.contains_iff_mem.mpr hmem)
      dsimp only
      rw [List.mem_cons, ih, BTreeSet.mem_insert]
      by_cases hkey : key item = key x
      · simp only [hkey, decide_true, Option.some.injEq]
        constructor
        · intro h
          obtain rfl | h := h
          · exact ⟨hitem, rfl⟩
          · exact absurd (Or.inl trivial) h.1
        · exact fun h => Or.inl h.2.symm
      · have hne : x ≠ item := fun heq => hkey (heq ▸ rfl)
        simp [hkey, hne, Ne.symm hkey]

end

end SnapshotDiff

end AtomrOntology
