import AtomrOntology.Graph.Identity
import AtomrOntology.Reason.Fixpoint

/-!
# Merging what a run derived

The engine adds an entry only under an id that is not taken, so nothing that was stored
is replaced, and merging the report leaves exactly the working copy in which the last
pass added nothing. Whether a pass adds something is a matter of ids alone, so the same
passes over the merged ontology add nothing either.
-/

namespace AtomrOntology

/-- Entries were added to a map, each under its own key and with some property. -/
structure BTreeMap.AddedTo {κ ν : Type} [Ord κ] [Std.TransOrd κ] (key : ν → κ) (P : ν → Prop)
    (m m' : BTreeMap κ ν) : Prop where
  kept : ∀ (k : κ) (v : ν), m[k]? = some v → m'[k]? = some v
  added : ∀ (k : κ) (v : ν), m'[k]? = some v → m[k]? = some v ∨ key v = k ∧ P v

namespace BTreeMap.AddedTo

variable {κ ν : Type} [Ord κ] [Std.TransOrd κ] {key : ν → κ} {P : ν → Prop} {m m' : BTreeMap κ ν}

/-- Nothing was added yet. -/
theorem refl (m : BTreeMap κ ν) : AddedTo key P m m := ⟨fun _ _ h => h, fun _ _ h => Or.inl h⟩

variable [Std.LawfulEqOrd κ] [DecidableEq κ]

/-- A further entry, under a key that is not taken. -/
theorem insert (h : AddedTo key P m m') {v : ν} (hnew : m'.contains (key v) = false) (hv : P v) :
    AddedTo key P m (m'.insert (key v) v) := by
  refine ⟨fun k w hw => ?_, fun k w hw => ?_⟩
  · rw [BTreeMap.get_insert]
    have hk : key v ≠ k := by
      rintro rfl
      rw [← Std.ExtTreeMap.isSome_getElem?_eq_contains, h.kept _ w hw] at hnew
      cases hnew
    rw [if_neg hk]
    exact h.kept k w hw
  · rw [BTreeMap.get_insert] at hw
    by_cases hk : key v = k
    · rw [if_pos hk] at hw
      obtain rfl := Option.some.inj hw
      exact Or.inr ⟨hk, hv⟩
    · rw [if_neg hk] at hw
      exact h.added k w hw

end BTreeMap.AddedTo

/-- An ontology with axioms and edges added under their own ids, the axioms stamped with an
activity. -/
structure Ontology.Extended (prov : ProvenanceId) (o w : Ontology) : Prop where
  others : w = { o with axioms := w.axioms, edges := w.edges }
  axioms : o.axioms.AddedTo Axiom.id (fun a => a.provenance = some prov) w.axioms
  edges : o.edges.AddedTo Edge.id (fun _ => True) w.edges

namespace Ontology.Extended

variable {prov : ProvenanceId} {o : Ontology} {s : Ontology × Bool}

theorem refl (o : Ontology) : Extended prov o o := ⟨rfl, .refl _, .refl _⟩

/-- Adding an axiom only extends. -/
theorem addAxiom (h : Extended prov o s.1) (a : Axiom) :
    Extended prov o (Reasoner.addAxiom prov s a).1 := by
  simp only [Reasoner.addAxiom]
  cases hc : s.1.axioms.contains (a.withProvenance prov).id with
  | true => exact h
  | false =>
    rw [if_neg (by simp)]
    refine ⟨?_, h.axioms.insert hc rfl, h.edges⟩
    rw [upsertAxiom, h.others]

/-- So does adding an edge. -/
theorem addEdge (h : Extended prov o s.1) (e : Edge) :
    Extended prov o (Reasoner.addEdge s e).1 := by
  simp only [Reasoner.addEdge]
  cases hc : s.1.edges.contains e.id with
  | true => exact h
  | false =>
    rw [if_neg (by simp)]
    refine ⟨?_, h.axioms, h.edges.insert hc trivial⟩
    rw [upsertEdge, h.others]

private theorem foldl {β : Type} {add : Ontology × Bool → β → Ontology × Bool} (xs : List β)
    (h : Extended prov o s.1) (hadd : ∀ s x, Extended prov o s.1 → Extended prov o (add s x).1) :
    Extended prov o (xs.foldl add s).1 := by
  induction xs generalizing s with
  | nil => exact h
  | cons x xs ih => exact ih (hadd s x h)

variable [Blake3]

/-- So does a rule. -/
theorem applyRule (h : Extended prov o s.1) (rule : Rule) :
    Extended prov o (Reasoner.applyRule prov s rule).1 :=
  foldl _ (foldl _ h fun _ a hs => hs.addAxiom a) fun _ e hs => hs.addEdge e

/-- So does a pass. -/
theorem pass {w : Ontology} (h : Extended prov o w) (self : Reasoner) :
    Extended prov o (self.pass prov w).1 :=
  foldl (s := (w, false)) _ h fun _ r hs => hs.applyRule r

end Ontology.Extended

namespace Reasoner

variable {self : Reasoner} {prov : ProvenanceId}

/-- Where two ways of adding both stand still whenever the first does, so do their folds. -/
private theorem foldl_quiet {β : Type} {add add' : Ontology × Bool → β → Ontology × Bool}
    (h : ∀ s x, (add s x).2 = false → add s x = s ∧ add' s x = s) {xs : List β}
    {s : Ontology × Bool}
    (hquiet : (xs.foldl add s).2 = false) : xs.foldl add s = s ∧ xs.foldl add' s = s := by
  induction xs generalizing s with
  | nil => exact ⟨rfl, rfl⟩
  | cons x xs ih =>
    rw [List.foldl_cons] at hquiet
    obtain ⟨hadd, hadd'⟩ := ih hquiet
    rw [hadd] at hquiet
    obtain ⟨hx, hx'⟩ := h s x hquiet
    rw [hx] at hadd hadd'
    exact ⟨by rw [List.foldl_cons, hx, hadd], by rw [List.foldl_cons, hx', hadd']⟩

private theorem addAxiom_quiet (prov' : ProvenanceId) (s : Ontology × Bool) (a : Axiom)
    (h : (addAxiom prov s a).2 = false) : addAxiom prov s a = s ∧ addAxiom prov' s a = s := by
  have hid : ∀ q : ProvenanceId, (a.withProvenance q).id = a.id := fun _ => rfl
  simp only [addAxiom, hid] at h ⊢
  cases hc : s.1.axioms.contains a.id with
  | true => exact ⟨rfl, rfl⟩
  | false => simp [hc] at h

private theorem addEdge_quiet (s : Ontology × Bool) (e : Edge) (h : (addEdge s e).2 = false) :
    addEdge s e = s ∧ addEdge s e = s := by
  simp only [addEdge] at h ⊢
  cases hc : s.1.edges.contains e.id with
  | true => exact ⟨rfl, rfl⟩
  | false => simp [hc] at h

variable [Blake3]

private theorem applyRule_quiet (prov' : ProvenanceId) (s : Ontology × Bool) (r : Rule)
    (h : (applyRule prov s r).2 = false) : applyRule prov s r = s ∧ applyRule prov' s r = s := by
  simp only [applyRule] at h ⊢
  obtain ⟨hedges, -⟩ := foldl_quiet addEdge_quiet h
  rw [hedges] at h ⊢
  obtain ⟨haxioms, haxioms'⟩ := foldl_quiet (addAxiom_quiet prov') h
  rw [haxioms] at hedges ⊢
  exact ⟨rfl, by rw [haxioms', hedges]⟩

/-- A pass that adds nothing changes nothing, whatever activity it is stamped with. -/
theorem pass_quiet {w : Ontology} (h : (self.pass prov w).2 = false) (prov' : ProvenanceId) :
    self.pass prov' w = (w, false) :=
  (foldl_quiet (applyRule_quiet prov') h).2

/-- What the loop returns extends what it started from, and a further pass adds nothing. -/
theorem saturate_extended {o w r : Ontology} {left done n : Nat} (hw : Ontology.Extended prov o w)
    (h : self.saturate prov left done w = .ok (r, n)) :
    Ontology.Extended prov o r ∧ (self.pass prov r).2 = false := by
  induction left generalizing done w with
  | zero => cases h
  | succ left ih =>
    have hpass := hw.pass self
    rw [saturate] at h
    cases hp : self.pass prov w with
    | mk w' flag =>
      rw [hp] at h hpass
      cases flag with
      | true => exact ih hpass h
      | false =>
        obtain ⟨rfl, -⟩ := Prod.mk.inj (Except.ok.inj h)
        have hflag : (self.pass prov w).2 = false := by rw [hp]
        have hsame := pass_quiet hflag prov
        rw [hp] at hsame
        obtain rfl := (Prod.mk.inj hsame).1
        exact ⟨hw, hflag⟩

end Reasoner

section

variable {kind : IdKind} {α : Type} {key : α → Id kind} {P : α → Prop} {m w : BTreeMap (Id kind) α}

/-- What is derived is found under new ids. -/
theorem Reasoner.mem_derivedFrom {v : α} : v ∈ Reasoner.derivedFrom key m w ↔
    ∃ k : Id kind, w[k]? = some v ∧ m.contains k = false := by
  simp only [Reasoner.derivedFrom, List.mem_mergeSort, List.mem_map, List.mem_filter, Prod.exists,
    Std.ExtTreeMap.mem_toList_iff_getElem?_eq_some, Bool.not_eq_true', exists_eq_right]

/-- What was derived is stored under its own key, which was not taken. -/
theorem BTreeMap.AddedTo.derived (h : m.AddedTo key P w) {v : α}
    (hv : v ∈ Reasoner.derivedFrom key m w) :
    w[key v]? = some v ∧ m.contains (key v) = false ∧ P v := by
  obtain ⟨k, hk, hnew⟩ := Reasoner.mem_derivedFrom.mp hv
  obtain hm | ⟨rfl, hP⟩ := h.added k v hk
  · rw [← Std.ExtTreeMap.isSome_getElem?_eq_contains, hm] at hnew
    cases hnew
  · exact ⟨hk, hnew, hP⟩

/-- The stored entries and the derived ones are all there is. -/
theorem BTreeMap.AddedTo.get_iff (h : m.AddedTo key P w) (k : Id kind) (v : α) :
    w[k]? = some v ↔ m[k]? = some v ∨ v ∈ Reasoner.derivedFrom key m w ∧ key v = k := by
  constructor
  · intro hw
    obtain hm | ⟨rfl, -⟩ := h.added k v hw
    · exact Or.inl hm
    · cases hc : m.contains (key v) with
      | false => exact Or.inr ⟨Reasoner.mem_derivedFrom.mpr ⟨_, hw, hc⟩, rfl⟩
      | true =>
        obtain ⟨u, hu⟩ := Option.isSome_iff_exists.mp
          (Std.ExtTreeMap.isSome_getElem?_eq_contains.trans hc)
        have hkept := h.kept _ u hu
        rw [hw] at hkept
        exact Or.inl (by rw [hu, ← hkept])
  · intro hv
    obtain hm | ⟨hv, rfl⟩ := hv
    · exact h.kept k v hm
    · exact (h.derived hv).1

/-- Inserting what was derived leaves the map it was derived in. -/
theorem BTreeMap.AddedTo.insertAll_derived (h : m.AddedTo key P w) :
    BTreeMap.insertAll key m (Reasoner.derivedFrom key m w) = w := by
  apply Std.ExtTreeMap.ext_getElem?
  intro k
  by_cases hk : ∃ v ∈ Reasoner.derivedFrom key m w, key v = k
  · obtain ⟨v, hv, rfl⟩ := hk
    rw [(h.derived hv).1]
    refine BTreeMap.get_insertAll_of_inj m hv fun u hu hkey => ?_
    have hu := (h.derived hu).1
    rw [hkey, (h.derived hv).1] at hu
    exact (Option.some.inj hu).symm
  · rw [BTreeMap.get_insertAll_of_not_mem m _ fun v hv hkey => hk ⟨v, hv, hkey⟩]
    ext v
    rw [h.get_iff k v]
    exact ⟨Or.inl, fun hv => hv.resolve_right fun hd => hk ⟨v, hd⟩⟩

end

/-- An ontology after a report was merged into it: what was stored is unchanged, and beside it
there is exactly what the report derived, under ids that were not taken. -/
structure Ontology.Merged (o : Ontology) (report : ReasoningReport) (o' : Ontology) : Prop where
  others : o' = { o with axioms := o'.axioms, edges := o'.edges }
  axioms : ∀ (id : AxiomId) (a : Axiom), o'.axioms[id]? = some a ↔
    o.axioms[id]? = some a ∨ a ∈ report.derivedAxioms ∧ a.id = id
  edges : ∀ (id : EdgeId) (e : Edge), o'.edges[id]? = some e ↔
    o.edges[id]? = some e ∨ e ∈ report.derivedEdges ∧ e.id = id
  newAxioms : ∀ a ∈ report.derivedAxioms, o.axioms.contains a.id = false
  newEdges : ∀ e ∈ report.derivedEdges, o.edges.contains e.id = false

namespace Reasoner

variable [Blake3] {self : Reasoner} {o : Ontology}

/-- What a run that succeeds has computed. -/
theorem run_ok {id : ProvenanceId} {now later : DateTime} {report : ReasoningReport}
    (h : self.run o id now later = .ok report) :
    ∃ w n, self.saturate id self.maxIterations 0 o = .ok (w, n) ∧
      report.derivedAxioms = derivedFrom Axiom.id o.axioms w.axioms ∧
      report.derivedEdges = derivedFrom Edge.id o.edges w.edges ∧
      report.iterations = n ∧ report.activity.id = id := by
  simp only [run] at h
  split at h
  · cases h
  · next w n hsat =>
    obtain rfl := Except.ok.inj h
    exact ⟨w, n, hsat, rfl, rfl, rfl, rfl⟩

/-- Running over an ontology in which a pass adds nothing. -/
theorem run_of_quiet {prov : ProvenanceId} (hcap : 0 < self.maxIterations)
    (hquiet : (self.pass prov o).2 = false) (id : ProvenanceId) (now later : DateTime) :
    ∃ report, self.run o id now later = .ok report ∧ report.derivedAxioms = [] ∧
      report.derivedEdges = [] ∧ report.iterations = 1 := by
  obtain ⟨left, hleft⟩ : ∃ left, self.maxIterations = left + 1 := ⟨self.maxIterations - 1, by omega⟩
  have hnone : ∀ {kind : IdKind} {α : Type} (key : α → Id kind) (m : BTreeMap (Id kind) α),
      derivedFrom key m m = [] := by
    intro kind α key m
    rw [List.eq_nil_iff_forall_not_mem]
    intro v hv
    obtain ⟨k, hk, hnew⟩ := mem_derivedFrom.mp hv
    rw [← Std.ExtTreeMap.isSome_getElem?_eq_contains, hk] at hnew
    cases hnew
  have hsat : self.saturate id self.maxIterations 0 o = .ok (o, 1) := by
    rw [hleft, saturate, pass_quiet hquiet id]
  have hid : (((Activity.started "reasoning" id now).by self.agent).withAttribute "rules"
      ⟨Codec.u64.ser (UInt64.ofNat self.rules.rules.length), rfl⟩).id = id := rfl
  simp only [run, hid, hsat]
  exact ⟨_, rfl, hnone _ _, hnone _ _, rfl⟩

/-- If materializing succeeds, the ontology is what the passes made of it, and a further pass adds
nothing: it has gained exactly what the report derived, each derived axiom names the activity,
and materializing again derives nothing, in one pass. If it fails, the ontology is unchanged. -/
theorem materialize_spec (self : Reasoner) (o : Ontology) (id : ProvenanceId)
    (now later : DateTime) :
    (∀ report o', self.materialize o id now later = (.ok report, o') →
      o' = self.working id o report.iterations ∧ (self.pass id o').2 = false ∧
      o.Merged report o' ∧ (∀ a ∈ report.derivedAxioms, a.provenance = some report.activity.id) ∧
      ∀ (id' : ProvenanceId) (now' later' : DateTime), ∃ report',
        self.materialize o' id' now' later' = (.ok report', o') ∧
          self.run o' id' now' later' = .ok report' ∧ report'.derivedAxioms = [] ∧
          report'.derivedEdges = [] ∧ report'.iterations = 1) ∧
    ∀ e o', self.materialize o id now later = (.error e, o') → o' = o := by
  constructor
  · intro report o' h
    rw [materialize] at h
    cases hrun : self.run o id now later with
    | error e => simp [hrun] at h
    | ok report' =>
      simp only [hrun, Prod.mk.injEq, Except.ok.injEq] at h
      obtain ⟨rfl, rfl⟩ := h
      obtain ⟨w, n, hsat, haxioms, hedges, hiterations, hid⟩ := run_ok hrun
      obtain ⟨hext, hquiet⟩ := saturate_extended (.refl o) hsat
      obtain ⟨passes, hn, hworking⟩ := saturate_working hsat
      rw [Nat.zero_add] at hn
      have hmerge : report'.derivedEdges.foldl Ontology.upsertEdge
          (report'.derivedAxioms.foldl Ontology.upsertAxiom o) = w := by
        rw [haxioms, hedges, Ontology.foldl_upsertAxiom, Ontology.foldl_upsertEdge,
          hext.axioms.insertAll_derived,
          hext.edges.insertAll_derived]
        exact hext.others.symm
      rw [hmerge, haxioms, hid, hiterations, hn]
      refine ⟨hworking, hquiet, ⟨hext.others, ?_, ?_, ?_, ?_⟩, fun a ha =>
        (hext.axioms.derived ha).2.2, ?_⟩
      · rw [haxioms]
        exact hext.axioms.get_iff
      · rw [hedges]
        exact hext.edges.get_iff
      · rw [haxioms]
        exact fun a ha => (hext.axioms.derived ha).2.1
      · rw [hedges]
        exact fun e he => (hext.edges.derived he).2.1
      · intro id' now' later'
        have hcap : 0 < self.maxIterations := by
          by_contra hcap
          rw [Nat.eq_zero_of_not_pos hcap] at hsat
          cases hsat
        obtain ⟨report'', hrun', ha, he, hn⟩ := run_of_quiet hcap hquiet id' now' later'
        refine ⟨report'', ?_, hrun', ha, he, hn⟩
        rw [materialize, hrun']
        simp [ha, he]
  · intro e o' h
    rw [materialize] at h
    cases hrun : self.run o id now later with
    | error e' =>
      rw [hrun] at h
      exact (Prod.mk.inj h).2.symm
    | ok report => simp [hrun] at h

end Reasoner

end AtomrOntology
