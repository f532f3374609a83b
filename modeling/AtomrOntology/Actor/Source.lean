import AtomrOntology.Core.Numbers
import AtomrOntology.Graph.Node
import AtomrOntology.Core.Multimap

/-!
# Actor persistence sources

Supervision paths, journal events and state blobs of an actor system, the batches they
travel in, and the in-memory source that numbers its events as they are pushed.
-/

namespace AtomrOntology

/-- Opaque actor identity within a source. -/
structure ActorId where
  value : String
deriving DecidableEq, Repr

namespace ActorId

/-- Actors are told apart by their names. -/
theorem value_inj {a b : ActorId} : a.value = b.value ↔ a = b := by
  cases a
  cases b
  rw [ActorId.mk.injEq]

/-- Actors are ordered by their text. -/
instance : Ord ActorId := ⟨fun a b => compare a.value b.value⟩

instance : Std.TransOrd ActorId where
  eq_swap := Std.OrientedOrd.eq_swap (α := String)
  isLE_trans := Std.TransOrd.isLE_trans (α := String)

instance : Std.LawfulEqOrd ActorId where
  compare_self := Std.ReflOrd.compare_self (α := String)
  eq_of_compare h := value_inj.mp (Std.LawfulEqOrd.eq_of_compare (α := String) h)

end ActorId

/-- A supervision-tree path: segments root first and the actor at the leaf. -/
structure SupervisionPath where
  segments : List String
  actor : ActorId
  attributes : BTreeMap String JsonValue

namespace SupervisionPath

/-- Parse a slash-separated path, without the empty segment before a leading slash. -/
def parse (path : String) : SupervisionPath :=
  let segs := (path.toList.splitOn '/').map String.ofList
  let segs := if segs.head? = some "" then segs.tail else segs
  ⟨segs, ⟨segs.getLast?.getD ""⟩, ∅⟩

/-- The segments, each after a slash; the root is a slash. -/
def render (path : SupervisionPath) : String :=
  let out := path.segments.foldl (fun out seg => out ++ "/" ++ seg) ""
  if out.isEmpty then "/" else out

/-- A rendered path has a slash before each segment. -/
theorem toList_render_foldl (segs : List String) (out : String) :
    (segs.foldl (fun out seg => out ++ "/" ++ seg) out).toList =
      out.toList ++ segs.flatMap fun seg => '/' :: seg.toList := by
  induction segs generalizing out with
  | nil => simp
  | cons seg segs ih => simp [ih]

/-- An absolute path is rendered as it was parsed. -/
theorem render_parse (cs : List Char) :
    (parse (.ofList ('/' :: cs))).render = .ofList ('/' :: cs) := by
  have hsplit : ('/' :: cs).splitOn '/' = [] :: cs.splitOn '/' := by
    simp [List.splitOn, List.splitOnP_cons_eq_if_modifyHead]
  have hsegs : (parse (.ofList ('/' :: cs))).segments = (cs.splitOn '/').map String.ofList := by
    simp [parse, hsplit]
  have hjoin : ∀ l : List (List Char), l ≠ [] →
      l.flatMap (fun seg => '/' :: seg) = '/' :: ['/'].intercalate l := by
    intro l hl
    induction l with
    | nil => exact absurd rfl hl
    | cons seg rest ih =>
      cases rest with
      | nil => simp
      | cons next rest =>
        rw [List.flatMap_cons, ih (List.cons_ne_nil _ _), List.intercalate_cons_cons]
        simp
  have hchars : ((parse (.ofList ('/' :: cs))).segments.foldl
      (fun out seg => out ++ "/" ++ seg) "").toList = '/' :: cs := by
    rw [toList_render_foldl, hsegs, List.flatMap_map]
    simp only [String.toList_ofList, String.toList_empty, List.nil_append]
    rw [hjoin _ (List.splitOn_ne_nil '/' cs), List.intercalate_splitOn]
  have hout := String.toList_inj.mp (hchars.trans String.toList_ofList.symm)
  unfold render
  simp only [hout]
  rw [if_neg]
  simp

end SupervisionPath

/-- Classification of a journal entry. -/
inductive JournalEventKind where
  | created
  | stateChanged
  | completed
  | terminated
  | custom (name : String)
deriving DecidableEq, Repr

/-- The name of an event kind, as the projections write it. -/
def journalEventKindStr : JournalEventKind → String
  | .created => "created"
  | .stateChanged => "state_changed"
  | .completed => "completed"
  | .terminated => "terminated"
  | .custom name => name

/-- Resumption position within a journal. -/
structure Cursor where
  version : UInt64
  token : Option String
deriving DecidableEq, Repr

namespace Cursor

/-- The position before the entire journal. -/
def beginning : Cursor := ⟨0, none⟩

/-- The position of a version. -/
def «at» (version : UInt64) : Cursor := ⟨version, none⟩

end Cursor

/-- A single journal entry. -/
structure JournalEvent where
  cursor : Cursor
  actor : ActorId
  path : Option SupervisionPath
  kind : JournalEventKind
  «at» : DateTime
  payload : JsonValue

/-- `JournalEvent::new`, at the time it is given: no path and a null payload. -/
def JournalEvent.new (cursor : Cursor) (actor : ActorId) (kind : JournalEventKind)
    (now : DateTime) : JournalEvent :=
  { cursor, actor, path := none, kind, «at» := now, payload := ⟨.null, rfl⟩ }

/-- A latest serialized-state blob for one actor. -/
structure SerializedState where
  actor : ActorId
  payload : JsonValue
  digest : Option String

/-- One unit of work flowing from ingest to projection. -/
structure ActorBatch where
  paths : List SupervisionPath
  events : List JournalEvent
  states : List SerializedState
  cursor : Cursor
  origin : Option String

/-- True when the batch carries no work. -/
def ActorBatch.isEmpty (b : ActorBatch) : Bool :=
  b.paths.isEmpty && b.events.isEmpty && b.states.isEmpty

/-- What the lock of an in-memory source guards. -/
structure InMemorySource where
  paths : List SupervisionPath
  journal : List JournalEvent
  states : BTreeMap ActorId SerializedState
  cursor : Cursor

namespace InMemorySource

/-- Append a journal event and bump the cursor. -/
def pushEvent (s : InMemorySource) (event : JournalEvent) : InMemorySource :=
  let cursor := { s.cursor with version := saturatingSucc s.cursor.version }
  { s with cursor, journal := s.journal ++ [{ event with cursor }] }

/-- Events strictly after a cursor. -/
def journalSince (s : InMemorySource) (since : Cursor) : List JournalEvent :=
  s.journal.filter fun e => since.version < e.cursor.version

/-- The latest state of an actor. -/
def state (s : InMemorySource) (actor : ActorId) : Option SerializedState := s.states[actor]?

/-- The events of a source are numbered from one on, and the cursor is the last number. -/
structure Numbered (s : InMemorySource) : Prop where
  cursor : s.cursor.version.toNat = s.journal.length
  events : s.journal.map (fun e => e.cursor.version.toNat) = List.range' 1 s.journal.length

/-- A further event keeps the journal numbered. -/
theorem Numbered.pushEvent {s : InMemorySource} (h : s.Numbered) (event : JournalEvent)
    (hmax : (s.pushEvent event).cursor.version.toNat < 2 ^ 64 - 1) :
    (s.pushEvent event).Numbered := by
  have hnext := toNat_saturatingSucc s.cursor.version
  have hlen : (s.pushEvent event).journal.length = s.journal.length + 1 := by
    simp [InMemorySource.pushEvent]
  have hcursor : (s.pushEvent event).cursor.version.toNat = s.journal.length + 1 := by
    have := h.cursor
    unfold InMemorySource.pushEvent at hmax ⊢
    simp only at hmax ⊢
    omega
  refine ⟨by omega, ?_⟩
  have hlast : (s.pushEvent event).journal.map (fun e => e.cursor.version.toNat) =
      s.journal.map (fun e => e.cursor.version.toNat) ++
        [(s.pushEvent event).cursor.version.toNat] := by
    simp [InMemorySource.pushEvent]
  rw [hlast, h.events, hcursor, hlen, List.range'_concat]
  congr 2
  omega

/-- The number of an event is one more than its position. -/
theorem Numbered.version_getElem {s : InMemorySource} (h : s.Numbered) {i : Nat}
    (hi : i < s.journal.length) : s.journal[i].cursor.version.toNat = i + 1 := by
  have hmap : (s.journal.map fun e => e.cursor.version.toNat)[i]? = some (i + 1) := by
    rw [h.events, List.getElem?_range' hi]
    congr 1
    omega
  rw [List.getElem?_map, List.getElem?_eq_getElem hi] at hmap
  exact Option.some.inj hmap

/-- A numbered journal repeats no event. -/
theorem Numbered.nodup {s : InMemorySource} (h : s.Numbered) : s.journal.Nodup := by
  apply List.Nodup.of_map fun e => e.cursor.version.toNat
  rw [h.events]
  exact List.nodup_range'

/-- In a numbered journal the events after a cursor are those after its position. -/
theorem Numbered.journalSince {s : InMemorySource} (h : s.Numbered) (since : Cursor) :
    s.journalSince since = s.journal.drop since.version.toNat := by
  have hafter : ∀ (i : Nat) (hi : i < s.journal.length),
      (since.version < s.journal[i].cursor.version) ↔ since.version.toNat ≤ i := by
    intro i hi
    have hv := h.version_getElem hi
    rw [UInt64.lt_iff_toNat_lt]
    omega
  have htake : (s.journal.take since.version.toNat).filter
      (fun e => since.version < e.cursor.version) = [] := by
    apply List.filter_eq_nil_iff.mpr
    intro e he
    obtain ⟨i, hi, rfl⟩ := List.mem_take_iff_getElem.mp he
    rw [decide_eq_true_iff, hafter i (by omega)]
    omega
  have hdrop : (s.journal.drop since.version.toNat).filter
      (fun e => since.version < e.cursor.version) = s.journal.drop since.version.toNat := by
    apply List.filter_eq_self.mpr
    intro e he
    obtain ⟨i, hi, rfl⟩ := List.mem_drop_iff_getElem.mp he
    rw [decide_eq_true_iff, hafter _ (by omega)]
    omega
  calc s.journalSince since
      = (s.journal.take since.version.toNat ++ s.journal.drop since.version.toNat).filter
          (fun e => since.version < e.cursor.version) := by
        rw [List.take_append_drop]
        rfl
    _ = s.journal.drop since.version.toNat := by
        rw [List.filter_append, htake, hdrop, List.nil_append]

end InMemorySource

end AtomrOntology
