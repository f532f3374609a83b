import AtomrOntology.Actor.Hierarchical
import AtomrOntology.Graph.Identity

/-!
# What minted ids keep apart

An id is the hash of a joined text. The joints are not escaped in what they join, so a
segment with a slash reads as several segments, a path can read as an event, and a colon can
move between the actor of an event and its kind. Nothing else is confused.
-/

/-- Parts that each follow a separator are the parts of the parts. -/
theorem List.splitOn_append_flatMap_cons {α : Type} [BEq α] [LawfulBEq α] (sep : α) (s : List α)
    (parts : List (List α)) : (s ++ parts.flatMap fun t => sep :: t).splitOn sep =
      s.splitOn sep ++ parts.flatMap fun t => t.splitOn sep := by
  induction parts generalizing s with
  | nil => simp
  | cons t parts ih =>
    rw [List.flatMap_cons, List.flatMap_cons, List.cons_append, List.splitOn_append_cons_self, ih]

/-- Lists are told apart by how they are split. -/
theorem List.splitOn_injective {α : Type} [BEq α] [LawfulBEq α] (sep : α) :
    Function.Injective fun s : List α => s.splitOn sep :=
  Function.LeftInverse.injective fun s => @List.intercalate_splitOn _ s _ _ sep

namespace AtomrOntology

namespace Minting

/-- An actor at a path, or an event. -/
inductive Subject where
  | actor (path : SupervisionPath)
  | event (event : JournalEvent)

/-- What ids are to keep apart: other segments, another version or actor, the other kind. -/
def Differ : Subject → Subject → Prop
  | .actor p, .actor q => p.segments ≠ q.segments
  | .event e, .event f => e.cursor.version ≠ f.cursor.version ∨ e.actor ≠ f.actor
  | _, _ => True

section

variable [Blake3]

/-- The id and IRI of a subject, given the id that a random draw would yield. -/
def mint (iri : IriMintingStrategy) (random : NodeId) :
    Subject → Except IriError (NodeId × Option Iri)
  | .actor path => iri.mintActor random path
  | .event event => iri.mintEvent random event

end

/-- A version in decimal. -/
def digits (event : JournalEvent) : String := toString event.cursor.version.toNat

/-- The text whose hash is the id of a subject. -/
def text (iri : IriMintingStrategy) : Subject → String
  | .actor path =>
    match iri with
    | .pathBased base => Flat.trimTrailingSlash base.value ++ path.render
    | _ => path.render
  | .event event =>
    match iri with
    | .pathBased base => Flat.trimTrailingSlash base.value ++
        ("/event/" ++ digits event ++ "/" ++ event.actor.value)
    | _ => "event:" ++ digits event ++ ":" ++ event.actor.value ++ ":" ++
        journalEventKindStr event.kind

section

variable [Blake3] {iri : IriMintingStrategy} {random : NodeId}

/-- Unless it is random, an id is the hash of the text of its subject. -/
theorem mint_ok (hiri : iri ≠ .uuid) {x : Subject} {id : NodeId} {i : Option Iri}
    (h : mint iri random x = .ok (id, i)) : id = Id.contentAddress (utf8 (text iri x)) := by
  have hnew : ∀ {s : String} {value : Iri}, Iri.new s = .ok value → value.value = s := by
    intro s value h
    unfold Iri.new at h
    split at h
    · cases h
    · split at h
      · cases h
      · rw [← Except.ok.inj h]
  cases iri with
  | uuid => exact absurd rfl hiri
  | contentAddressed =>
    cases x with
    | actor path => exact (congrArg Prod.fst (Except.ok.inj h)).symm
    | event event => exact (congrArg Prod.fst (Except.ok.inj h)).symm
  | pathBased base =>
    cases x with
    | actor path =>
      obtain ⟨value, hvalue, hpure⟩ := bind_eq_ok.mp h
      rw [text]
      exact hnew hvalue ▸ (congrArg Prod.fst (Except.ok.inj hpure)).symm
    | event event =>
      obtain ⟨value, hvalue, hpure⟩ := bind_eq_ok.mp h
      rw [text]
      exact hnew hvalue ▸ (congrArg Prod.fst (Except.ok.inj hpure)).symm

end

/-- What is between the slashes of a path. -/
def pathNames (path : SupervisionPath) : List (List Char) :=
  match path.segments with
  | [] => [[]]
  | segments => segments.flatMap fun seg => seg.toList.splitOn '/'

/-- What is between the slashes of the IRI of an event, after the base. -/
def eventNames (event : JournalEvent) : List (List Char) :=
  "event".toList :: (digits event).toList :: event.actor.value.toList.splitOn '/'

/-- A rendered path is split into its names. -/
theorem splitOn_render (path : SupervisionPath) :
    path.render.toList.splitOn '/' = [] :: pathNames path := by
  cases hsegments : path.segments with
  | nil => simp [SupervisionPath.render, pathNames, hsegments, List.splitOn_cons_eq_if_modifyHead]
  | cons seg segs =>
    have hchars := SupervisionPath.toList_render_foldl path.segments ""
    rw [String.toList_empty, List.nil_append] at hchars
    have hrender : path.render.toList = path.segments.flatMap fun seg => '/' :: seg.toList := by
      unfold SupervisionPath.render
      rw [if_neg, hchars]
      rw [String.isEmpty_iff, ← String.toList_inj, hchars, hsegments]
      simp
    have hparts := List.splitOn_append_flatMap_cons '/' [] (path.segments.map String.toList)
    simp only [List.nil_append, List.flatMap_map, List.splitOn_nil] at hparts
    rw [hrender, hparts, pathNames, hsegments]
    rfl

private theorem not_mem_digits {c : Char} (hc : c.isDigit = false) (event : JournalEvent) :
    c ∉ (digits event).toList := by
  intro h
  rw [digits, Nat.toString_eq_repr, Nat.toList_repr] at h
  rw [Nat.isDigit_of_mem_toDigits (by decide) (by decide) h] at hc
  cases hc

/-- So is the suffix of an event. -/
theorem splitOn_suffix (event : JournalEvent) :
    ("/event/" ++ digits event ++ "/" ++ event.actor.value).toList.splitOn '/' =
      [] :: eventNames event := by
  have hchars : ("/event/" ++ digits event ++ "/" ++ event.actor.value).toList =
      [] ++ '/' :: ("event".toList ++ '/' :: ((digits event).toList ++
        '/' :: event.actor.value.toList)) := by
    simp
  rw [hchars, List.splitOn_append_cons_self_of_not_mem List.not_mem_nil,
    List.splitOn_append_cons_self_of_not_mem (by simp),
    List.splitOn_append_cons_self_of_not_mem (not_mem_digits (by decide) event)]
  rfl

/-- Events with the same digits have the same version. -/
theorem digits_injective {e f : JournalEvent} (h : (digits e).toList = (digits f).toList) :
    e.cursor.version = f.cursor.version :=
  UInt64.toNat_inj.mp (Nat.repr_injective (String.toList_inj.mp h))

/-- The second event has a part of the kind of the first one in its actor. -/
def Shifts (e f : JournalEvent) : Prop :=
  ∃ m, f.actor.value = e.actor.value ++ ":" ++ m ∧
    journalEventKindStr e.kind = m ++ ":" ++ journalEventKindStr f.kind

/-- Subjects that a strategy hashes alike, though they may differ. -/
def Confused : IriMintingStrategy → Subject → Subject → Prop
  | _, .actor p, .actor q => pathNames p = pathNames q
  | .pathBased _, .actor p, .event e => pathNames p = eventNames e
  | .pathBased _, .event e, .actor p => pathNames p = eventNames e
  | .contentAddressed, .event e, .event f =>
    e.cursor.version = f.cursor.version ∧ (Shifts e f ∨ Shifts f e)
  | _, _, _ => False

/-- Paths are rendered alike if they have the same names. -/
theorem render_eq_iff {p q : SupervisionPath} :
    p.render = q.render ↔ pathNames p = pathNames q := by
  rw [← String.toList_inj, ← (List.splitOn_injective '/').eq_iff]
  simp only [splitOn_render, List.cons.injEq, true_and]

/-- A path is rendered like the suffix of an event if it has its names. -/
theorem render_eq_suffix_iff {p : SupervisionPath} {e : JournalEvent} :
    p.render = "/event/" ++ digits e ++ "/" ++ e.actor.value ↔ pathNames p = eventNames e := by
  rw [← String.toList_inj, ← (List.splitOn_injective '/').eq_iff]
  simp only [splitOn_render, splitOn_suffix, List.cons.injEq, true_and]

/-- The IRI of an event names its version and its actor. -/
theorem suffix_eq_iff {e f : JournalEvent} :
    "/event/" ++ digits e ++ "/" ++ e.actor.value = "/event/" ++ digits f ++ "/" ++ f.actor.value ↔
      e.cursor.version = f.cursor.version ∧ e.actor = f.actor := by
  constructor
  · intro h
    have hnames := congrArg (fun s : String => s.toList.splitOn '/') h
    simp only [splitOn_suffix, eventNames, List.cons.injEq, true_and] at hnames
    refine ⟨digits_injective hnames.1, ?_⟩
    exact ActorId.value_inj.mp (String.toList_inj.mp (List.splitOn_injective '/' hnames.2))
  · intro h
    rw [digits, digits, h.1, h.2]

private theorem eq_append_colon_iff {s t m : String} :
    s.toList = t.toList ++ ':' :: m.toList ↔ s = t ++ ":" ++ m := by
  rw [← String.toList_inj]
  simp

/-- The key of an event names its version, but its actor and kind only together. -/
theorem key_eq_iff {e f : JournalEvent} :
    "event:" ++ digits e ++ ":" ++ e.actor.value ++ ":" ++ journalEventKindStr e.kind =
      "event:" ++ digits f ++ ":" ++ f.actor.value ++ ":" ++ journalEventKindStr f.kind ↔
    e.cursor.version = f.cursor.version ∧
      ((e.actor = f.actor ∧ journalEventKindStr e.kind = journalEventKindStr f.kind) ∨
        Shifts e f ∨ Shifts f e) := by
  have hkey : ∀ g : JournalEvent,
      ("event:" ++ digits g ++ ":" ++ g.actor.value ++ ":" ++ journalEventKindStr g.kind).toList =
        "event:".toList ++ ((digits g).toList ++ ':' :: (g.actor.value.toList ++
          ':' :: (journalEventKindStr g.kind).toList)) := by
    intro g
    simp
  have hversion : ∀ {r r' : List Char},
      (digits e).toList ++ ':' :: r = (digits f).toList ++ ':' :: r' ↔
        e.cursor.version = f.cursor.version ∧ r = r' := by
    intro r r'
    rw [append_sep_eq_iff]
    constructor
    · intro h
      obtain ⟨hdigits, hrest⟩ | ⟨m, hm, -⟩ | ⟨m, hm, -⟩ := h
      · exact ⟨digits_injective hdigits, hrest⟩
      · exact absurd (by simp [hm]) (not_mem_digits (c := ':') (by decide) f)
      · exact absurd (by simp [hm]) (not_mem_digits (c := ':') (by decide) e)
    · intro h
      rw [digits, digits, h.1]
      exact Or.inl ⟨rfl, h.2⟩
  have hshifts : ∀ {g g' : JournalEvent}, (∃ m, g'.actor.value.toList =
      g.actor.value.toList ++ ':' :: m ∧ (journalEventKindStr g.kind).toList =
        m ++ ':' :: (journalEventKindStr g'.kind).toList) ↔ Shifts g g' := by
    intro g g'
    constructor
    · intro h
      obtain ⟨m, hactor, hkind⟩ := h
      refine ⟨.ofList m, eq_append_colon_iff.mp ?_, eq_append_colon_iff.mp ?_⟩
      · rw [hactor, String.toList_ofList]
      · rw [hkind, String.toList_ofList]
    · intro h
      obtain ⟨m, hactor, hkind⟩ := h
      exact ⟨m.toList, eq_append_colon_iff.mpr hactor, eq_append_colon_iff.mpr hkind⟩
  rw [← String.toList_inj, hkey, hkey, List.append_cancel_left_eq, hversion, append_sep_eq_iff,
    hshifts, hshifts, String.toList_inj, String.toList_inj, ActorId.value_inj]

/-- Subjects that differ have one text exactly if they are confused. -/
theorem text_eq_iff {iri : IriMintingStrategy} (hiri : iri ≠ .uuid) {x y : Subject}
    (hdiffer : Differ x y) : text iri x = text iri y ↔ Confused iri x y := by
  have hbase : ∀ {base s t : String}, base ++ s = base ++ t ↔ s = t := by
    intro base s t
    rw [← String.toList_inj, String.toList_append, String.toList_append, List.append_cancel_left_eq,
      String.toList_inj]
  -- a path starts with a slash, the key of an event does not
  have happart : ∀ (p : SupervisionPath) (rest : String), p.render ≠ "event:" ++ rest := by
    intro p rest h
    have hchars := congrArg (fun s : String => s.toList.splitOn '/') h
    simp only [splitOn_render] at hchars
    rw [String.toList_append, String.toList_ofList] at hchars
    obtain ⟨name, names, hnames⟩ := List.exists_cons_of_ne_nil (List.splitOn_ne_nil '/' rest.toList)
    simp [List.splitOn_cons_eq_if_modifyHead, hnames] at hchars
  cases iri with
  | uuid => exact absurd rfl hiri
  | pathBased base =>
    cases x with
    | actor p =>
      cases y with
      | actor q => exact hbase.trans render_eq_iff
      | event e => exact hbase.trans render_eq_suffix_iff
    | event e =>
      cases y with
      | actor q => exact (hbase.trans eq_comm).trans render_eq_suffix_iff
      | event f =>
        refine (hbase.trans suffix_eq_iff).trans ⟨fun h => ?_, False.elim⟩
        exact hdiffer.elim (absurd h.1) (absurd h.2)
  | contentAddressed =>
    cases x with
    | actor p =>
      cases y with
      | actor q => exact render_eq_iff
      | event e =>
        simp only [text, String.append_assoc, Confused, iff_false]
        exact happart p _
    | event e =>
      cases y with
      | actor q =>
        simp only [text, String.append_assoc, Confused, iff_false]
        exact (happart q _).symm
      | event f =>
        refine key_eq_iff.trans (and_congr_right fun hversion => or_iff_right fun h => ?_)
        exact hdiffer.elim (absurd hversion) (absurd h.1)

section

variable [Blake3]

/-- Two subjects that differ get different ids exactly if the strategy does not confuse them. -/
theorem ids_differ_iff (iri : IriMintingStrategy) (hiri : iri ≠ .uuid) (random random' : NodeId)
    (x y : Subject) (hdiffer : Differ x y) (id id' : NodeId) (i i' : Option Iri)
    (hx : mint iri random x = .ok (id, i)) (hy : mint iri random' y = .ok (id', i'))
    (hblake : (Id.contentAddress (utf8 (text iri x)) : NodeId) =
      Id.contentAddress (utf8 (text iri y)) → text iri x = text iri y) :
    id ≠ id' ↔ ¬Confused iri x y := by
  rw [mint_ok hiri hx, mint_ok hiri hy, ← text_eq_iff hiri hdiffer, ne_eq, not_iff_not]
  constructor
  · exact hblake
  · intro h
    rw [h]

end

/-- The two events of a workflow and of its run are kept apart. -/
theorem created_events_differ :
    (@Id.contentAddress Blake3.beginning .node (utf8 "event:1:wf:created")) ≠
      @Id.contentAddress Blake3.beginning .node (utf8 "event:2:run:created") := by
  refine (@ids_differ_iff Blake3.beginning .contentAddressed (by decide) (.filled 0)
    (.filled 0) (.event (.new (.at 1) ⟨"wf"⟩ .created .epoch))
    (.event (.new (.at 2) ⟨"run"⟩ .created .epoch)) (Or.inl (by decide)) _ _ none none rfl rfl
    ?_).mpr ?_
  · decide +kernel
  · intro h
    exact absurd h.1 (by decide)

/-- A path reads as an event, a slash joins two segments, and a colon moves from an actor to
the kind of its event. -/
theorem minted_ids_collide :
    (∃ id i, @mint Blake3.beginning (.pathBased ⟨"urn:x"⟩) (.filled 0)
        (.actor (.parse "/event/7/alpha")) = .ok (id, i) ∧
      @mint Blake3.beginning (.pathBased ⟨"urn:x"⟩) (.filled 0)
        (.event (.new (.at 7) ⟨"alpha"⟩ .created .epoch)) = .ok (id, i)) ∧
    (∃ id i, @mint Blake3.beginning .contentAddressed (.filled 0)
        (.actor ⟨["a/b"], ⟨"a/b"⟩, ∅⟩) = .ok (id, i) ∧
      @mint Blake3.beginning .contentAddressed (.filled 0)
        (.actor ⟨["a", "b"], ⟨"b"⟩, ∅⟩) = .ok (id, i)) ∧
    ∃ id i, @mint Blake3.beginning .contentAddressed (.filled 0)
        (.event (.new (.at 7) ⟨"a:b"⟩ (.custom "c") .epoch)) = .ok (id, i) ∧
      @mint Blake3.beginning .contentAddressed (.filled 0)
        (.event (.new (.at 7) ⟨"a"⟩ (.custom "b:c") .epoch)) = .ok (id, i) := by
  refine ⟨⟨_, _, rfl, ?_⟩, ⟨_, _, rfl, ?_⟩, ⟨_, _, rfl, ?_⟩⟩
  · decide +kernel
  · decide +kernel
  · decide +kernel

end Minting

end AtomrOntology
