import AtomrOntology.Graph.Ontology

/-!
# The provenance ledger

Activities and entities keyed by id, and the append-only lineage records between
them.
-/

namespace AtomrOntology

/-- Kind of agent. -/
inductive AgentKind where
  | person
  | software
  | organization
deriving DecidableEq, Repr

/-- Reference to an agent. -/
structure AgentRef where
  id : String
  kind : AgentKind
  label : String
deriving DecidableEq, Repr

/-- Something that happened over a span of time. -/
structure Activity where
  id : ProvenanceId
  label : String
  startedAt : DateTime
  endedAt : Option DateTime
  agent : Option AgentRef
  attributes : BTreeMap String JsonValue

/-- A software agent. -/
def AgentRef.software (id label : String) : AgentRef := ⟨id, .software, label⟩

namespace Activity

/-- A freshly started activity, with the id and the time it is given. -/
def started (label : String) (id : ProvenanceId) (now : DateTime) : Activity :=
  ⟨id, label, now, none, none, ∅⟩

/-- Mark the activity finished. -/
def finish (a : Activity) (now : DateTime) : Activity := { a with endedAt := some now }

/-- Attach an attribute. -/
def withAttribute (a : Activity) (key : String) (value : JsonValue) : Activity :=
  { a with attributes := a.attributes.insert key value }

/-- Attach an agent reference. -/
def «by» (a : Activity) (agent : AgentRef) : Activity := { a with agent := some agent }

end Activity

/-- A snapshot of data that took part in an activity. -/
structure ProvEntity where
  id : ProvenanceId
  label : String
  digest : Option String
  attributes : BTreeMap String JsonValue

/-- The entity was produced by the activity. -/
structure WasGeneratedBy where
  entity : ProvenanceId
  activity : ProvenanceId
deriving DecidableEq

/-- The first entity is derived from the second. -/
structure WasDerivedFrom where
  derived : ProvenanceId
  source : ProvenanceId
deriving DecidableEq

/-- The entity is attributed to the agent. -/
structure WasAttributedTo where
  entity : ProvenanceId
  agent : AgentRef
deriving DecidableEq

/-- The activity consumed the entity. -/
structure Used where
  activity : ProvenanceId
  entity : ProvenanceId
deriving DecidableEq

/-- The in-memory ledger. -/
structure ProvenanceLog where
  activities : BTreeMap ProvenanceId Activity
  entities : BTreeMap ProvenanceId ProvEntity
  generations : List WasGeneratedBy
  derivations : List WasDerivedFrom
  attributions : List WasAttributedTo
  uses : List Used

namespace ProvenanceLog

/-- The empty ledger. -/
def empty : ProvenanceLog := ⟨∅, ∅, [], [], [], []⟩

/-- Record an activity under its id. -/
def recordActivity (l : ProvenanceLog) (a : Activity) : ProvenanceLog :=
  { l with activities := l.activities.insert a.id a }

/-- Record an entity under its id. -/
def recordEntity (l : ProvenanceLog) (e : ProvEntity) : ProvenanceLog :=
  { l with entities := l.entities.insert e.id e }

/-- Append a `wasGeneratedBy` record. -/
def generated (l : ProvenanceLog) (entity activity : ProvenanceId) : ProvenanceLog :=
  { l with generations := l.generations ++ [⟨entity, activity⟩] }

/-- Append a `wasDerivedFrom` record. -/
def derived (l : ProvenanceLog) (derived source : ProvenanceId) : ProvenanceLog :=
  { l with derivations := l.derivations ++ [⟨derived, source⟩] }

/-- Append a `wasAttributedTo` record. -/
def attributed (l : ProvenanceLog) (entity : ProvenanceId) (agent : AgentRef) : ProvenanceLog :=
  { l with attributions := l.attributions ++ [⟨entity, agent⟩] }

/-- Append a `used` record. -/
def used (l : ProvenanceLog) (activity entity : ProvenanceId) : ProvenanceLog :=
  { l with uses := l.uses ++ [⟨activity, entity⟩] }

/-- Activities and entities are stored under their own ids. -/
structure Keyed (l : ProvenanceLog) : Prop where
  activities : l.activities.KeyedBy Activity.id
  entities : l.entities.KeyedBy ProvEntity.id

theorem Keyed.empty : Keyed .empty := ⟨.empty _, .empty _⟩

/-- Recording an activity keeps a log keyed. -/
theorem Keyed.recordActivity {l : ProvenanceLog} (h : l.Keyed) (a : Activity) :
    (l.recordActivity a).Keyed := ⟨h.activities.insert a, h.entities⟩

/-- Recording an entity keeps a log keyed. -/
theorem Keyed.recordEntity {l : ProvenanceLog} (h : l.Keyed) (e : ProvEntity) :
    (l.recordEntity e).Keyed := ⟨h.activities, h.entities.insert e⟩

/-- What the recorders build from the empty ledger. -/
inductive Built : ProvenanceLog → Prop
  | empty : Built .empty
  | recordActivity {l : ProvenanceLog} (h : Built l) (a : Activity) : Built (l.recordActivity a)
  | recordEntity {l : ProvenanceLog} (h : Built l) (e : ProvEntity) : Built (l.recordEntity e)
  | generated {l : ProvenanceLog} (h : Built l) (entity activity : ProvenanceId) :
    Built (l.generated entity activity)
  | derived {l : ProvenanceLog} (h : Built l) (derived source : ProvenanceId) :
    Built (l.derived derived source)
  | attributed {l : ProvenanceLog} (h : Built l) (entity : ProvenanceId) (agent : AgentRef) :
    Built (l.attributed entity agent)
  | used {l : ProvenanceLog} (h : Built l) (activity entity : ProvenanceId) :
    Built (l.used activity entity)

/-- A log that was built call by call is keyed. -/
theorem Built.keyed {l : ProvenanceLog} (h : l.Built) : l.Keyed := by
  induction h with
  | empty => exact .empty
  | recordActivity _ a ih => exact ih.recordActivity a
  | recordEntity _ e ih => exact ih.recordEntity e
  | generated _ _ _ ih => exact ⟨ih.activities, ih.entities⟩
  | derived _ _ _ ih => exact ⟨ih.activities, ih.entities⟩
  | attributed _ _ _ ih => exact ⟨ih.activities, ih.entities⟩
  | used _ _ _ ih => exact ⟨ih.activities, ih.entities⟩

end ProvenanceLog

/-- The snake-case names. -/
def AgentKind.name : AgentKind → String
  | .person => "person"
  | .software => "software"
  | .organization => "organization"

def AgentKind.codec : Codec AgentKind :=
  .variants AgentKind.name [.person, .software, .organization]

def AgentRef.codec : Codec AgentRef :=
  (Codec.record <| .both (.required "id" .string) <| .both (.required "kind" AgentKind.codec)
    (.required "label" .string)).iso
    { toFun a := (a.id, a.kind, a.label)
      invFun x := ⟨x.1, x.2.1, x.2.2⟩ }

def WasGeneratedBy.codec : Codec WasGeneratedBy :=
  (Codec.record <| .both (.required "entity" .id) (.required "activity" .id)).iso
    { toFun g := (g.entity, g.activity)
      invFun x := ⟨x.1, x.2⟩ }

def WasDerivedFrom.codec : Codec WasDerivedFrom :=
  (Codec.record <| .both (.required "derived" .id) (.required "source" .id)).iso
    { toFun d := (d.derived, d.source)
      invFun x := ⟨x.1, x.2⟩ }

def WasAttributedTo.codec : Codec WasAttributedTo :=
  (Codec.record <| .both (.required "entity" .id) (.required "agent" AgentRef.codec)).iso
    { toFun a := (a.entity, a.agent)
      invFun x := ⟨x.1, x.2⟩ }

def Used.codec : Codec Used :=
  (Codec.record <| .both (.required "activity" .id) (.required "entity" .id)).iso
    { toFun u := (u.activity, u.entity)
      invFun x := ⟨x.1, x.2⟩ }

section Reads

variable [SerdeJson]

@[simp] theorem AgentKind.survives_codec (k : AgentKind) : AgentKind.codec.Survives k := by
  simp only [AgentKind.codec, Codec.survives_variants]
  cases k <;> decide

/-- Every agent is read back. -/
@[simp] theorem AgentRef.survives_codec (a : AgentRef) : AgentRef.codec.Survives a := by
  simp [AgentRef.codec]

omit [SerdeJson] in
/-- An agent is not written as null, so it is told apart from a missing one. -/
@[simp] theorem AgentRef.codec_ne_null (a : AgentRef) : AgentRef.codec.ser a ≠ .null := by
  simp [AgentRef.codec]

/-- Every generation is read back. -/
@[simp] theorem WasGeneratedBy.survives_codec (g : WasGeneratedBy) :
    WasGeneratedBy.codec.Survives g := by
  simp [WasGeneratedBy.codec]

/-- Every derivation is read back. -/
@[simp] theorem WasDerivedFrom.survives_codec (d : WasDerivedFrom) :
    WasDerivedFrom.codec.Survives d := by
  simp [WasDerivedFrom.codec]

/-- Every attribution is read back. -/
@[simp] theorem WasAttributedTo.survives_codec (a : WasAttributedTo) :
    WasAttributedTo.codec.Survives a := by
  simp [WasAttributedTo.codec]

/-- Every use is read back. -/
@[simp] theorem Used.survives_codec (u : Used) : Used.codec.Survives u := by
  simp [Used.codec]

end Reads

/-- The reader restores the floats of every attribute. -/
def ReadableAttributes [SerdeJson] (attributes : BTreeMap String JsonValue) : Prop :=
  ∀ v ∈ attributes.vals, v.val.reread = some v.val

end AtomrOntology
