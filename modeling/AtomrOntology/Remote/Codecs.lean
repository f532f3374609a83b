import AtomrOntology.Remote.Wire

/-!
# The JSON of the mirrors

The derived codecs of the mirrors, and which values come back from a printed document:
those whose floats the reader restores and that do not nest too deeply.
-/

namespace AtomrOntology

namespace Remote

section Codecs

variable [SerdeJson] [Chrono]

/-- The fields of a pattern in declaration order. -/
def WireNodePattern.parts : WireNodePattern ≃ Option String × List String ×
    BTreeMap String PropertyValue × Option NodeId × List WireNodePattern × List
    WireNodePattern where
  toFun w := (w.bind, w.types, w.properties, w.id, w.or, w.not)
  invFun x := ⟨x.1, x.2.1, x.2.2.1, x.2.2.2.1, x.2.2.2.2.1, x.2.2.2.2.2⟩
  left_inv w := by cases w; rfl

/-- The fields of a pattern, with the nested patterns written by the given codec. -/
def WireNodePattern.fields (c : Codec WireNodePattern) :=
  Fields.both (.skipNone "bind" .string) <| .both (.skipEmpty "types" .string) <|
    .both (.skipEmptyMap "properties" PropertyValue.codec) <|
    .both (.skipNone "id" (.id : Codec NodeId)) <| .both (.skipEmpty "or" c)
      (.skipEmpty "not" c)

/-- The codec of patterns that are nested less deeply than the given number of levels. -/
def WireNodePattern.codecAt : Nat → Codec WireNodePattern
  | 0 => ⟨fun _ => .null, fun _ => .error .recursionLimitExceeded⟩
  | levels + 1 => (Codec.record (WireNodePattern.fields (codecAt levels))).iso WireNodePattern.parts

/-- A pattern is written with as many levels as it has. What is read has passed the limit of
the reader, so that many levels are enough. -/
def WireNodePattern.codec : Codec WireNodePattern where
  ser w := (codecAt (w.height + 1)).ser w
  de := (codecAt Json.recursionLimit).de

def WireEdgePattern.codec : Codec WireEdgePattern :=
  (Codec.record <| .both (.skipNone "bind" .string) <| .both (.skipNone "label" .string) <|
    .both (.skipEmptyMap "properties" PropertyValue.codec)
      (.skipNone "repeat" (.pair .u64 .u64))).iso
    { toFun w := (w.bind, w.label, w.properties, w.repeat)
      invFun x := ⟨x.1, x.2.1, x.2.2.1, x.2.2.2⟩ }

def WireSortOrder.codec : Codec WireSortOrder :=
  .variants WireSortOrder.name [.ascending, .descending]

def WireTraversalStep.codec : Codec WireTraversalStep :=
  (Codec.record <| .both (.required "edge" WireEdgePattern.codec) <|
    .both (.required "target" WireNodePattern.codec) (.required "outbound" .bool)).iso
    { toFun w := (w.edge, w.target, w.outbound)
      invFun x := ⟨x.1, x.2.1, x.2.2⟩ }

def WireTraversalPlan.codec : Codec WireTraversalPlan :=
  (Codec.record <| .both (.required "seed" WireNodePattern.codec) <|
    .both (.defaulted "steps" (.list WireTraversalStep.codec) []) <|
    .both (.defaulted "return_columns" (.list .string) []) <|
    .both (.defaulted "order" (.list (.pair .string WireSortOrder.codec)) []) <|
    .both (.defaulted "skip" .u64 0) (.defaulted "limit" (.option .u64) none)).iso
    { toFun w := (w.seed, w.steps, w.returnColumns, w.order, w.skip, w.limit)
      invFun x := ⟨x.1, x.2.1, x.2.2.1, x.2.2.2.1, x.2.2.2.2.1, x.2.2.2.2.2⟩ }

def WireMatchRow.codec : Codec WireMatchRow :=
  (Codec.record <| .both (.defaulted "nodes" (.map .id) ∅) (.defaulted "edges" (.map .id) ∅)).iso
    { toFun w := (w.nodes, w.edges)
      invFun x := ⟨x.1, x.2⟩ }

def WireStoreDiff.codec : Codec WireStoreDiff :=
  (Codec.record <| .both (.defaulted "added_nodes" (.list .id) []) <|
    .both (.defaulted "removed_nodes" (.list .id) []) <|
    .both (.defaulted "added_edges" (.list .id) []) (.defaulted "removed_edges" (.list .id) [])).iso
    { toFun w := (w.addedNodes, w.removedNodes, w.addedEdges, w.removedEdges)
      invFun x := ⟨x.1, x.2.1, x.2.2.1, x.2.2.2⟩ }

def WireOntologyDelta.codec : Codec WireOntologyDelta :=
  (Codec.record <|
    .both (.both (.defaulted "nodes" (.list Node.codec) [])
      (.defaulted "edges" (.list Edge.codec) []))
      (.defaulted "axioms" (.list Axiom.codec) [])).iso
    { toFun w := ((w.nodes, w.edges), w.axioms)
      invFun x := ⟨x.1.1, x.1.2, x.2⟩ }

def WireOntology.codec : Codec WireOntology :=
  (Codec.record <|
    .both (.both (.both (.both (.both (.skipNone "iri" .iri)
      (.defaulted "vocabulary" Vocabulary.codec .empty))
      (.defaulted "schema" Schema.codec .empty))
      (.defaulted "nodes" (.list Node.codec) []))
      (.defaulted "edges" (.list Edge.codec) []))
      (.defaulted "axioms" (.list Axiom.codec) [])).iso
    { toFun w := (((((w.iri, w.vocabulary), w.schema), w.nodes), w.edges), w.axioms)
      invFun x := ⟨x.1.1.1.1.1, x.1.1.1.1.2, x.1.1.1.2, x.1.1.2, x.1.2, x.2⟩ }

def WireActivity.codec : Codec WireActivity :=
  (Codec.record <|
    .both (.both (.both (.both (.both (.required "id" .id)
      (.required "label" .string))
      (.required "started_at" .dateTime))
      (.defaulted "ended_at" (.option .dateTime) none))
      (.defaulted "agent" (.option AgentRef.codec) none))
      (.defaulted "attributes" (.map .value) ∅)).iso
    { toFun w := (((((w.id, w.label), w.startedAt), w.endedAt), w.agent), w.attributes)
      invFun x := ⟨x.1.1.1.1.1, x.1.1.1.1.2, x.1.1.1.2, x.1.1.2, x.1.2, x.2⟩ }

def WireProvEntity.codec : Codec WireProvEntity :=
  (Codec.record <|
    .both (.both (.both (.required "id" .id) (.required "label" .string))
      (.defaulted "digest" (.option .string) none)) (.defaulted "attributes" (.map .value) ∅)).iso
    { toFun w := (((w.id, w.label), w.digest), w.attributes)
      invFun x := ⟨x.1.1.1, x.1.1.2, x.1.2, x.2⟩ }

def WireProvenanceLog.codec : Codec WireProvenanceLog :=
  (Codec.record <|
    .both (.both (.both (.both (.both (.defaulted "activities" (.list WireActivity.codec) [])
      (.defaulted "entities" (.list WireProvEntity.codec) []))
      (.defaulted "generations" (.list WasGeneratedBy.codec) []))
      (.defaulted "derivations" (.list WasDerivedFrom.codec) []))
      (.defaulted "attributions" (.list WasAttributedTo.codec) []))
      (.defaulted "uses" (.list Used.codec) [])).iso
    { toFun w :=
        (((((w.activities, w.entities), w.generations), w.derivations), w.attributions), w.uses)
      invFun x := ⟨x.1.1.1.1.1, x.1.1.1.1.2, x.1.1.1.2, x.1.1.2, x.1.2, x.2⟩ }

end Codecs

mutual

/-- The reader restores every float of a pattern and of the patterns nested in it. -/
def WireNodePattern.Readable [SerdeJson] : WireNodePattern → Prop
  | ⟨_, _, properties, _, or, not⟩ =>
    (∀ v ∈ properties.vals, v.Readable) ∧ AllReadable or ∧ AllReadable not

def WireNodePattern.AllReadable [SerdeJson] : List WireNodePattern → Prop
  | [] => True
  | w :: ws => w.Readable ∧ AllReadable ws

end

namespace WireNodePattern

/-- A pattern is lower than the list that it is in. -/
theorem height_lt_heights {w : WireNodePattern} {ws : List WireNodePattern} (hw : w ∈ ws) :
    w.height < heights ws := by
  induction ws with
  | nil => cases hw
  | cons v ws ih =>
    rw [heights]
    obtain rfl | hw := List.mem_cons.mp hw
    · omega
    · have := ih hw
      omega

/-- A list is one higher than its highest pattern. -/
theorem heights_le {ws : List WireNodePattern} {n : Nat} (h : ∀ w ∈ ws, w.height + 1 ≤ n) :
    heights ws ≤ n := by
  induction ws with
  | nil => exact Nat.zero_le n
  | cons w ws ih =>
    rw [heights]
    exact max_le (h w List.mem_cons_self) (ih fun v hv => h v (List.mem_cons_of_mem w hv))

/-- Patterns can be read if each of them can. -/
theorem allReadable_iff [SerdeJson] {ws : List WireNodePattern} :
    AllReadable ws ↔ ∀ w ∈ ws, w.Readable := by
  induction ws with
  | nil => simp [AllReadable]
  | cons w ws ih => simp [AllReadable, ih]

variable [SerdeJson] [Chrono]

/-- More levels than a pattern has make no difference to what is written. -/
theorem ser_codecAt {n m : Nat} {w : WireNodePattern} (hn : w.height < n) (hm : w.height < m) :
    (codecAt n).ser w = (codecAt m).ser w := by
  induction n generalizing m w with
  | zero => omega
  | succ n ih =>
    obtain ⟨m, rfl⟩ : ∃ m', m = m' + 1 := ⟨m - 1, by omega⟩
    obtain ⟨bind, types, properties, id, or, not⟩ := w
    rw [height] at hn hm
    have hor : or.map (codecAt n).ser = or.map (codecAt m).ser := by
      refine List.map_congr_left fun w hw => ih ?_ ?_
      all_goals
        have := height_lt_heights hw
        omega
    have hnot : not.map (codecAt n).ser = not.map (codecAt m).ser := by
      refine List.map_congr_left fun w hw => ih ?_ ?_
      all_goals
        have := height_lt_heights hw
        omega
    simp only [codecAt, Codec.ser_iso, Codec.record, fields, parts, Equiv.coe_fn_mk, Fields.both,
      Fields.skipEmpty, Fields.field, Codec.list, hor, hnot]

/-- A pattern with few enough levels is read back when its floats are. -/
theorem survives_codecAt {n : Nat} {w : WireNodePattern} (hn : w.height < n) :
    (codecAt n).Survives w ↔ w.Readable := by
  induction n generalizing w with
  | zero => omega
  | succ n ih =>
    obtain ⟨bind, types, properties, id, or, not⟩ := w
    rw [height] at hn
    have hall : ∀ {ws : List WireNodePattern}, heights ws < n + 1 →
        ((∀ w ∈ ws, (codecAt n).Survives w) ↔ AllReadable ws) := by
      intro ws hws
      rw [allReadable_iff]
      refine forall₂_congr fun w hw => ih ?_
      have := height_lt_heights hw
      omega
    simp only [codecAt, Codec.survives_iso, Codec.survives_record, fields, parts, Equiv.coe_fn_mk,
      Fields.reads_both, Fields.reads_skipNone, Fields.reads_skipEmpty, Fields.reads_skipEmptyMap,
      Codec.reads_self, Codec.survives_list, Codec.survives_map, PropertyValue.survives_codec,
      Readable,
      hall (show heights or < n + 1 by omega), hall (show heights not < n + 1 by omega)]
    simp

/-- A pattern that does not nest too deeply survives if it can be read. -/
theorem survives_codec {w : WireNodePattern} (h : w.height < Json.recursionLimit) :
    codec.Survives w ↔ w.Readable := by
  rw [← survives_codecAt h, Codec.Survives, Codec.Reads, codec, ser_codecAt (Nat.lt_succ_self _) h]
  rfl

/-- Every level of a pattern is a level of its document. -/
theorem height_le_of_fits {n m : Nat} {w : WireNodePattern} (hn : w.height < n)
    (h : (codecAt n).Fits m w) : w.height ≤ m := by
  induction n generalizing m w with
  | zero => omega
  | succ n ih =>
    obtain ⟨bind, types, properties, id, or, not⟩ := w
    rw [height] at hn ⊢
    simp only [codecAt, Codec.fits_iso, Codec.fits_record, fields, parts, Equiv.coe_fn_mk,
      Fields.fits_both, Fields.fits_skipEmpty, Codec.fits_list] at h
    obtain ⟨hm, -, -, -, -, hor, hnot⟩ := h
    have hall : ∀ {ws : List WireNodePattern}, heights ws < n + 1 →
        (ws ≠ [] → 0 < m - 1 ∧ ∀ w ∈ ws, (codecAt n).Fits (m - 1 - 1) w) → heights ws ≤ m := by
      intro ws hws hfits
      refine heights_le fun w hw => ?_
      obtain ⟨hroom, hfits⟩ := hfits (List.ne_nil_of_mem hw)
      have hlt := height_lt_heights hw
      have := ih (by omega) (hfits w hw)
      omega
    exact max_le (hall (by omega) hor) (hall (by omega) hnot)

end WireNodePattern

end Remote

end AtomrOntology
