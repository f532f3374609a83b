import AtomrOntology.Graph.Ontology

/-!
# What ids identify

The id of an edge is derived from its endpoints and label, which have fixed places. The
canonical text of an axiom joins the operands by a bar and does not escape one inside them, so a
bar can be read as part of the first operand or of the second. Exactly the axioms that
differ in where a bar is put have one text. So ids tell edges apart, and not all axioms.
-/

namespace AtomrOntology

/-- Two joined texts are the same if they are joined at one place, or if one of them is
joined at a later separator of the other. -/
theorem append_sep_eq_iff {α : Type} {sep : α} {s t u v : List α} :
    s ++ sep :: t = u ++ sep :: v ↔ (s = u ∧ t = v) ∨
      (∃ m, u = s ++ sep :: m ∧ t = m ++ sep :: v) ∨ ∃ m, s = u ++ sep :: m ∧
      v = m ++ sep :: t := by
  rw [List.append_eq_append_iff]
  constructor
  · intro h
    obtain ⟨m, rfl, hm⟩ | ⟨m, rfl, hm⟩ := h
    · cases m with
      | nil => exact Or.inl ⟨by simp, (List.cons.inj hm).2⟩
      | cons c m =>
        obtain ⟨rfl, rfl⟩ := List.cons.inj hm
        exact Or.inr (Or.inl ⟨m, rfl, rfl⟩)
    · cases m with
      | nil => exact Or.inl ⟨by simp, (List.cons.inj hm).2.symm⟩
      | cons c m =>
        obtain ⟨rfl, rfl⟩ := List.cons.inj hm
        exact Or.inr (Or.inr ⟨m, rfl, rfl⟩)
  · intro h
    obtain ⟨rfl, rfl⟩ | ⟨m, rfl, rfl⟩ | ⟨m, rfl, rfl⟩ := h
    · exact Or.inl ⟨[], by simp⟩
    · exact Or.inl ⟨sep :: m, rfl, rfl⟩
    · exact Or.inr ⟨sep :: m, rfl, rfl⟩

/-- The endpoints have one length each, so nothing in the label is taken for a part of them. -/
theorem Edge.input_inj {s s' t t' : NodeId} {l l' : String}
    (h : Edge.input s l t = Edge.input s' l' t') : s = s' ∧ l = l' ∧ t = t' := by
  have hbytes : ∀ {a b : NodeId}, a.bytes.toList = b.bytes.toList → a = b := by
    intro a b hab
    cases a
    cases b
    exact congrArg Id.mk (Vector.toList_inj.mp hab)
  simp only [Edge.input, List.append_assoc, List.cons_append] at h
  obtain ⟨hs, h⟩ := List.append_inj h (by simp)
  have h := (List.cons.inj h).2
  have hlength := congrArg List.length h
  simp only [List.length_append, List.length_cons, Vector.length_toList] at hlength
  obtain ⟨hl, ht⟩ := List.append_inj h (by omega)
  exact ⟨hbytes hs, utf8_injective hl, hbytes (List.cons.inj ht).2⟩

/-- The source, the label and the target of an edge. -/
abbrev Connection := NodeId × String × NodeId

/-- What the id of the edge of a connection is derived from. -/
def Connection.input (c : Connection) : List UInt8 := Edge.input c.1 c.2.1 c.2.2

/-- Connections are told apart by what is hashed. -/
theorem Connection.input_injective : Function.Injective Connection.input := by
  intro c c' h
  obtain ⟨hs, hl, ht⟩ := Edge.input_inj h
  exact Prod.ext hs (Prod.ext hl ht)

section

variable [Blake3]

/-- The edge of a connection. -/
def Connection.edge (c : Connection) : Edge := Edge.between c.1 c.2.1 c.2.2

/-- Upsert an edge for every given connection. -/
def Ontology.upsertConnections (o : Ontology) (cs : List Connection) : Ontology :=
  cs.foldl (fun o c => o.upsertEdge c.edge) o

private theorem edges_upsertConnections (o : Ontology) (cs : List Connection) :
    (o.upsertConnections cs).edges =
      BTreeMap.insertAll Edge.id o.edges (cs.map Connection.edge) := by
  induction cs generalizing o with
  | nil => rfl
  | cons c cs ih => exact ih _

/-- Two calls give one id only for the same source, label and target, and upserting all the edges
keeps each, if the digest keeps apart what the ids are derived from. -/
theorem Edge.ids_identify {cs : List Connection}
    (hhash : Set.InjOn (Id.contentAddress : List UInt8 → EdgeId)
      (Connection.input '' {c | c ∈ cs})) :
    (∀ c ∈ cs, ∀ c' ∈ cs, (Edge.between c.1 c.2.1 c.2.2).id = (Edge.between c'.1 c'.2.1 c'.2.2).id →
        c.1 = c'.1 ∧ c.2.1 = c'.2.1 ∧ c.2.2 = c'.2.2) ∧
      ∀ o : Ontology, ∀ c ∈ cs, (o.upsertConnections cs).edges[c.edge.id]? = some c.edge := by
  have hids : ∀ c ∈ cs, ∀ c' ∈ cs, c.edge.id = c'.edge.id → c = c' := fun c hc c' hc' hid =>
    Connection.input_injective (hhash ⟨c, hc, rfl⟩ ⟨c', hc', rfl⟩ hid)
  constructor
  · intro c hc c' hc' hid
    obtain rfl := hids c hc c' hc' hid
    exact ⟨rfl, rfl, rfl⟩
  · intro o c hc
    rw [edges_upsertConnections]
    refine BTreeMap.get_insertAll_of_inj _ (List.mem_map_of_mem hc) fun e he hid => ?_
    obtain ⟨c', hc', rfl⟩ := List.mem_map.mp he
    rw [hids c' hc' c hc hid]

end

/-- A label and the same label with a NUL behind it. -/
private def nulLabels : List Connection :=
  [(.filled 1, "a", .filled 0), (.filled 1, "a\x00", .filled 0)]

/-- A NUL in a label is not taken for one of the separators. -/
theorem Edge.ids_identify_nul : let _ : Blake3 :=
    ⟨fun _ input => Vector.ofFn fun i => input.getD (i + 36) 1⟩
    ∀ o : Ontology, ∀ c ∈ nulLabels, (o.upsertConnections nulLabels).edges[c.edge.id]? =
      some c.edge := by
  intro _ o c hc
  refine (Edge.ids_identify ?_).2 o c hc
  have hne : (Id.contentAddress (Edge.input (.filled 1) "a" (.filled 0)) : EdgeId) ≠
      Id.contentAddress (Edge.input (.filled 1) "a\x00" (.filled 0)) := by decide +kernel
  rintro _ ⟨c, hc, rfl⟩ _ ⟨c', hc', rfl⟩ hid
  simp only [nulLabels, List.mem_cons, List.not_mem_nil, or_false, Set.mem_ofPred_eq] at hc hc'
  obtain rfl | rfl := hc <;> obtain rfl | rfl := hc'
  · rfl
  · exact absurd hid hne
  · exact absurd hid.symm hne
  · rfl

namespace AxiomKind

/-- What the text of an axiom starts with. -/
def tag : AxiomKind → String
  | .subClassOf _ _ => "SubClassOf"
  | .equivalentClass _ _ => "EquivalentClass"
  | .disjointWith _ _ => "DisjointWith"
  | .domain _ _ => "Domain"
  | .range _ _ => "Range"
  | .functional _ => "Functional"
  | .inverseFunctional _ => "InverseFunctional"
  | .inverseOf _ _ => "InverseOf"
  | .symmetric _ => "Symmetric"
  | .transitive _ => "Transitive"

/-- The operands of an axiom. -/
def operands : AxiomKind → String × Option String
  | .subClassOf sub sup => (sub, some sup)
  | .equivalentClass left right => (left, some right)
  | .disjointWith left right => (left, some right)
  | .domain property cls => (property, some cls)
  | .range property cls => (property, some cls)
  | .functional property => (property, none)
  | .inverseFunctional property => (property, none)
  | .inverseOf left right => (left, some right)
  | .symmetric property => (property, none)
  | .transitive property => (property, none)

/-- The text of the operands. -/
def joined : String × Option String → String
  | (a, none) => a
  | (a, some b) => a ++ "|" ++ b

private theorem canonical_pair {t u a b : String} (h : t = u ++ "|") :
    t ++ a ++ "|" ++ b = u ++ "|" ++ joined (a, some b) := by
  simp only [h, joined, String.append_assoc]

private theorem canonical_single {t u a : String} (h : t = u ++ "|") :
    t ++ a = u ++ "|" ++ joined (a, none) := by
  rw [h, joined]

/-- The canonical text is the tag and the operands. -/
theorem canonical_eq (k : AxiomKind) : k.canonical = k.tag ++ "|" ++ joined k.operands := by
  cases k with
  | functional => exact canonical_single rfl
  | inverseFunctional => exact canonical_single rfl
  | symmetric => exact canonical_single rfl
  | transitive => exact canonical_single rfl
  | _ => exact canonical_pair rfl

theorem canonical_toList (k : AxiomKind) :
    k.canonical.toList = k.tag.toList ++ '|' :: (joined k.operands).toList := by
  rw [canonical_eq, String.toList_append, String.toList_append, List.append_assoc]
  rfl

private theorem bar_not_mem_tag (k : AxiomKind) : '|' ∉ k.tag.toList := by
  cases k <;> simp [tag]

/-- The tag says how many operands there are. -/
private theorem isSome_of_tag {k k' : AxiomKind} (h : k.tag = k'.tag) :
    k.operands.2.isSome = k'.operands.2.isSome := by
  cases k <;> cases k' <;> simp [tag, operands] at h ⊢

/-- An axiom is determined by its tag and its operands. -/
private theorem eq_of_tag {k k' : AxiomKind} (h : k.tag = k'.tag) (ho : k.operands = k'.operands) :
    k = k' := by
  cases k <;> cases k' <;> simp_all [tag, operands]

/-- The second axiom is the first with a bar and what precedes it moved from the second operand
to the first. -/
def Shifts (k k' : AxiomKind) : Prop :=
  k.tag = k'.tag ∧ ∃ a m b, k.operands = (a, some (m ++ "|" ++ b)) ∧
    k'.operands = (a ++ "|" ++ m, some b)

/-- Nothing shifts where the second operand has no bar. -/
theorem not_shifts {k : AxiomKind} (h : ∀ b, k.operands.2 = some b → '|' ∉ b.toList)
    (k' : AxiomKind) : ¬k.Shifts k' := by
  intro hs
  obtain ⟨-, a, m, b, ho, -⟩ := hs
  apply h (m ++ "|" ++ b) (by rw [ho])
  simp

/-- Shifted kinds are different. -/
theorem Shifts.ne {k k' : AxiomKind} (h : k.Shifts k') : k ≠ k' := by
  rintro rfl
  obtain ⟨-, a, m, b, ho, ho'⟩ := h
  rw [ho] at ho'
  have hlength := congrArg String.length (Prod.mk.inj ho').1
  simp only [String.length_append] at hlength
  have hbar : "|".length = 1 := rfl
  omega

/-- Two axioms have one text exactly if they differ at most in where a bar is put. -/
theorem canonical_eq_iff {k k' : AxiomKind} :
    k.canonical = k'.canonical ↔ k = k' ∨ k.Shifts k' ∨ k'.Shifts k := by
  constructor
  · intro h
    have htexts : k.tag.toList ++ '|' :: (joined k.operands).toList =
        k'.tag.toList ++ '|' :: (joined k'.operands).toList := by
      rw [← canonical_toList, h, canonical_toList]
    obtain ⟨htag, hjoined⟩ := split_first k.bar_not_mem_tag k'.bar_not_mem_tag htexts
    have htag := String.toList_inj.mp htag
    have hjoined := String.toList_inj.mp hjoined
    have hsome := isSome_of_tag htag
    rcases ho : k.operands with ⟨a, b⟩
    rcases ho' : k'.operands with ⟨a', b'⟩
    rw [ho, ho'] at hsome hjoined
    cases b with
    | none =>
      cases b' with
      | some _ => cases hsome
      | none => exact Or.inl (eq_of_tag htag (by rw [ho, ho', show a = a' from hjoined]))
    | some b =>
      cases b' with
      | none => cases hsome
      | some b' =>
        have hlist : a.toList ++ '|' :: b.toList = a'.toList ++ '|' :: b'.toList := by
          simpa [joined] using congrArg String.toList hjoined
        obtain ⟨ha, hb⟩ | ⟨m, ha, hb⟩ | ⟨m, ha, hb⟩ := append_sep_eq_iff.mp hlist
        · refine Or.inl (eq_of_tag htag ?_)
          rw [ho, ho', String.toList_inj.mp ha, String.toList_inj.mp hb]
        · refine Or.inr (Or.inl ⟨htag, a, String.ofList m, b', ?_, ?_⟩)
          · rw [ho]
            exact congrArg (fun b => (a, some b)) (String.toList_inj.mp (by simp [hb]))
          · rw [ho']
            exact congrArg (fun a => (a, some b')) (String.toList_inj.mp (by simp [ha]))
        · refine Or.inr (Or.inr ⟨htag.symm, a', String.ofList m, b, ?_, ?_⟩)
          · rw [ho']
            exact congrArg (fun b => (a', some b)) (String.toList_inj.mp (by simp [hb]))
          · rw [ho]
            exact congrArg (fun a => (a, some b)) (String.toList_inj.mp (by simp [ha]))
  · intro h
    have hshifts : ∀ {k k' : AxiomKind}, k.Shifts k' → k.canonical = k'.canonical := by
      intro k k' h
      obtain ⟨htag, a, m, b, ho, ho'⟩ := h
      rw [canonical_eq, canonical_eq, htag, ho, ho', joined, joined]
      simp only [String.append_assoc]
    obtain rfl | h | h := h
    · rfl
    · exact hshifts h
    · exact (hshifts h).symm

end AxiomKind

variable [Blake3]

/-- Upsert an axiom of every given kind. -/
def Ontology.upsertKinds (o : Ontology) (ks : List AxiomKind) : Ontology :=
  ks.foldl (fun o k => o.upsertAxiom (Axiom.new k)) o

private theorem axioms_upsertKinds (o : Ontology) (ks : List AxiomKind) :
    (o.upsertKinds ks).axioms = BTreeMap.insertAll Axiom.id o.axioms (ks.map Axiom.new) := by
  induction ks generalizing o with
  | nil => rfl
  | cons k ks ih => exact ih _

private theorem new_id_eq_iff {ks : List AxiomKind}
    (hhash : Set.InjOn AxiomId.fromCanonical (AxiomKind.canonical '' {k | k ∈ ks}))
    {k k' : AxiomKind} (hk : k ∈ ks) (hk' : k' ∈ ks) :
    (Axiom.new k).id = (Axiom.new k').id ↔ k = k' ∨ k.Shifts k' ∨ k'.Shifts k := by
  rw [← AxiomKind.canonical_eq_iff]
  constructor
  · intro h
    exact hhash ⟨k, hk, rfl⟩ ⟨k', hk', rfl⟩ h
  · intro h
    exact congrArg AxiomId.fromCanonical h

/-- The ids tell the axioms of a list apart, and upserting them all keeps each, exactly if no
axiom of the list is another with a bar moved from the second operand to the first. -/
theorem Axiom.ids_identify_iff {ks : List AxiomKind}
    (hhash : Set.InjOn AxiomId.fromCanonical (AxiomKind.canonical '' {k | k ∈ ks})) :
    ((∀ k ∈ ks, ∀ k' ∈ ks, (Axiom.new k).id = (Axiom.new k').id → k = k') ∧
      ∀ o : Ontology, ∀ k ∈ ks,
        (o.upsertKinds ks).axioms[(Axiom.new k).id]? = some (Axiom.new k)) ↔
      ∀ k ∈ ks, ∀ k' ∈ ks, ¬k.Shifts k' := by
  constructor
  · intro h k hk k' hk' hs
    exact hs.ne (h.1 k hk k' hk' ((new_id_eq_iff hhash hk hk').mpr (Or.inr (Or.inl hs))))
  · intro h
    have hids : ∀ k ∈ ks, ∀ k' ∈ ks, (Axiom.new k).id = (Axiom.new k').id → k = k' := by
      intro k hk k' hk' hid
      obtain hk | hs | hs := (new_id_eq_iff hhash hk hk').mp hid
      · exact hk
      · exact absurd hs (h k hk k' hk')
      · exact absurd hs (h k' hk' k hk)
    refine ⟨hids, fun o k hk => ?_⟩
    rw [axioms_upsertKinds]
    refine BTreeMap.get_insertAll_of_inj _ (List.mem_map_of_mem hk) fun w hw hid => ?_
    obtain ⟨k', hk', rfl⟩ := List.mem_map.mp hw
    rw [hids k' hk' k hk hid]

omit [Blake3] in
/-- A bar in the first operand is no obstacle. -/
theorem Axiom.ids_identify_barred : let _ : Blake3 :=
    ⟨fun _ input => Vector.ofFn fun i => input.getD i 0⟩
    ∀ k ∈ [AxiomKind.subClassOf "a|b" "c", .subClassOf "a" "c"], ∀ o : Ontology,
      (o.upsertKinds [.subClassOf "a|b" "c", .subClassOf "a" "c"]).axioms[(Axiom.new k).id]? =
        some (Axiom.new k) := by
  intro _ k hk o
  refine (Axiom.ids_identify_iff ?_).mpr ?_ |>.2 o k hk
  · have hne :
      AxiomId.fromCanonical "SubClassOf|a|b|c" ≠ AxiomId.fromCanonical "SubClassOf|a|c" := by
      decide +kernel
    rintro s ⟨k, hk, rfl⟩ t ⟨k', hk', rfl⟩ h
    simp only [List.mem_cons, List.not_mem_nil, or_false, Set.mem_ofPred_eq] at hk hk'
    obtain rfl | rfl := hk <;> obtain rfl | rfl := hk'
    · rfl
    · exact absurd h hne
    · exact absurd h.symm hne
    · rfl
  · intro k hk k' _
    apply AxiomKind.not_shifts
    intro b hb
    simp only [List.mem_cons, List.not_mem_nil, or_false] at hk
    obtain rfl | rfl := hk <;> simp [AxiomKind.operands] at hb <;> subst hb <;> simp

omit [Blake3] in
/-- Two axioms that no digest tells apart: the second upsert replaces the first. -/
theorem Axiom.ids_collide : AxiomKind.subClassOf "a|b" "c" ≠ .subClassOf "a" "b|c" ∧
    ∀ _ : Blake3, (Axiom.new (.subClassOf "a|b" "c")).id = (Axiom.new (.subClassOf "a" "b|c")).id ∧
      Axiom.new (.subClassOf "a|b" "c") ∉
        (Ontology.empty.upsertKinds [.subClassOf "a|b" "c",
          .subClassOf "a" "b|c"]).axioms.vals := by
  have hne : AxiomKind.subClassOf "a|b" "c" ≠ .subClassOf "a" "b|c" := by decide
  refine ⟨hne, ?_⟩
  intro _
  have hid : (Axiom.new (.subClassOf "a|b" "c")).id = (Axiom.new (.subClassOf "a" "b|c")).id :=
    congrArg AxiomId.fromCanonical (by decide)
  refine ⟨hid, fun hmem => ?_⟩
  obtain ⟨id, hid'⟩ := BTreeMap.mem_vals.mp hmem
  rw [axioms_upsertKinds] at hid'
  simp only [List.map_cons, List.map_nil, BTreeMap.insertAll_cons, BTreeMap.insertAll_nil, hid,
    BTreeMap.get_insert] at hid'
  by_cases hk : (Axiom.new (.subClassOf "a" "b|c")).id = id
  · rw [if_pos hk] at hid'
    exact hne (congrArg Axiom.kind (Option.some.inj hid')).symm
  · simp [hk, Ontology.empty] at hid'

end AtomrOntology
