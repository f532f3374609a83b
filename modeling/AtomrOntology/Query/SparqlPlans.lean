import AtomrOntology.Query.SparqlForms
import AtomrOntology.Query.CypherPlans
import AtomrOntology.Query.SparqlReads

/-!
# Plans of printed queries

Lowering compiles triples one by one into the plan that they denote, as long as no verb but the
keyword has its text. A printed query is read as the plan that it denotes exactly if that holds
and the tokens are laid out as the parser takes them.
-/

namespace AtomrOntology

namespace Sparql

open Cypher (ok_bind)

variable {seed u : String} {ts : List TriplePattern} {t : TriplePattern} {k : Nat}

/-- How the parser records a position. -/
def siteOf : Nat → BindingSite
  | 0 => .seed
  | i + 1 => .step i

theorem site_seed : site seed ts seed = some 0 := if_pos rfl

theorem site_le (h : site seed ts u = some k) : k ≤ (ts.filter TriplePattern.isHop).length := by
  rw [site] at h
  split at h
  · rw [← Option.some.inj h]
    exact Nat.zero_le _
  · obtain ⟨i, hi, rfl⟩ := Option.map_eq_some_iff.mp h
    exact (List.findIdx?_eq_some_iff_findIdx_eq.mp hi).1

/-- A type says nothing about positions. -/
theorem site_type (ht : t.isHop = false) : site seed (ts ++ [t]) u = site seed ts u := by
  rw [site, site, List.filter_append, List.filter_singleton, ht]
  simp

/-- A position is not lost. -/
theorem site_append (h : site seed ts u = some k) : site seed (ts ++ [t]) u = some k := by
  rw [site] at h ⊢
  by_cases hu : u = seed
  · rwa [if_pos hu] at h ⊢
  · rw [if_neg hu] at h ⊢
    obtain ⟨i, hi, rfl⟩ := Option.map_eq_some_iff.mp h
    rw [List.filter_append, List.findIdx?_append, hi]
    rfl

/-- A hop introduces its object, unless it has a position already. -/
theorem site_hop (ht : t.isHop = true) (h : site seed ts u = none) :
    site seed (ts ++ [t]) u =
      if t.object.asVar = some u then some ((ts.filter TriplePattern.isHop).length + 1)
      else none := by
  rw [site] at h ⊢
  by_cases hu : u = seed
  · rw [if_pos hu] at h
    cases h
  · rw [if_neg hu] at h ⊢
    rw [List.filter_append, List.findIdx?_append, Option.map_eq_none_iff.mp h,
      List.filter_singleton,
      ht]
    by_cases ho : t.object.asVar = some u
    · simp [ho]
    · simp [ho]

/-- The parser knows the positions, and every type belongs to one. -/
structure Located (seed : String) (ts : List TriplePattern)
    (bindings : BTreeMap String BindingSite) : Prop where
  sites : ∀ u, bindings[u]? = (site seed ts u).map siteOf
  types : ∀ t ∈ ts, t.isHop = false → ∃ s k, t.subject.asVar = some s ∧ site seed ts s = some k

theorem typesAt_hop {bindings : BTreeMap String BindingSite} (h : Located seed ts bindings)
    (ht : t.isHop = true) (position : Nat) :
    typesAt seed (ts ++ [t]) position = typesAt seed ts position := by
  have hfilter :
    ∀ t' ∈ ts, (!t'.isHop && t'.subject.asVar.bind (site seed (ts ++ [t])) == some position) =
      (!t'.isHop && t'.subject.asVar.bind (site seed ts) == some position) := by
    intro t' ht'
    cases hhop : t'.isHop with
    | true => rfl
    | false =>
      obtain ⟨s, k, hs, hk⟩ := h.types t' ht' hhop
      rw [hs, Option.bind_some, Option.bind_some, site_append hk, hk]
  rw [typesAt, typesAt, List.filter_append, List.filter_congr hfilter, List.filter_singleton, ht]
  simp

theorem typesAt_type {s ty : String} (ht : t.isHop = false) (hs : t.subject.asVar = some s)
    (hty : t.object.label = some ty) (position : Nat) :
    typesAt seed (ts ++ [t]) position = typesAt seed ts position ++
      if site seed ts s = some position then [labelLocalname ty] else [] := by
  have hsite : site seed (ts ++ [t]) = site seed ts := funext fun _ => site_type ht
  rw [typesAt, typesAt, hsite, List.filter_append, List.filterMap_append,
    List.filter_singleton, ht, hs]
  by_cases hk : site seed ts s = some position
  · simp [hk, hty]
  · have hbeq : (site seed ts s == some position) = false := by simpa using hk
    simp [hk, hbeq]

/-- Positions beyond the last hop have no types. -/
theorem typesAt_beyond {position : Nat} (h : (ts.filter TriplePattern.isHop).length < position) :
    typesAt seed ts position = [] := by
  have hnone : ∀ t ∈ ts, ¬(!t.isHop && t.subject.asVar.bind (site seed ts) == some position) := by
    intro t ht hmatch
    rw [Bool.and_eq_true, beq_iff_eq] at hmatch
    obtain ⟨s, -, hs⟩ := Option.bind_eq_some_iff.mp hmatch.2
    have hle := site_le hs
    omega
  rw [typesAt, List.filter_eq_nil_iff.mpr hnone, List.filterMap_nil]

/-- A type is attached where its subject is. -/
theorem planOf_type {s ty : String} (ht : t.isHop = false) (hs : t.subject.asVar = some s)
    (hk : site seed ts s = some k) (hty : t.object.label = some ty) :
    planOf seed (ts ++ [t]) = attachType (planOf seed ts) (some (siteOf k))
    (labelLocalname ty) := by
  have hhops : (ts ++ [t]).filter TriplePattern.isHop = ts.filter TriplePattern.isHop := by
    rw [List.filter_append, List.filter_singleton, ht]
    simp
  have htypes := fun position => @typesAt_type seed ts t s ty ht hs hty position
  simp only [hk, Option.some.injEq] at htypes
  rw [planOf, planOf, hhops, htypes]
  cases k with
  | zero =>
    have hsteps :
      ((ts.filter TriplePattern.isHop).mapIdx fun i t' => stepTo seed (ts ++ [t]) (i + 1) t') =
        (ts.filter TriplePattern.isHop).mapIdx fun i t' => stepTo seed ts (i + 1) t' := by
      simp [stepTo, htypes]
    rw [hsteps]
    rfl
  | succ idx =>
    have hsteps :
      ((ts.filter TriplePattern.isHop).mapIdx fun i t' => stepTo seed (ts ++ [t]) (i + 1) t') =
        ((ts.filter TriplePattern.isHop).mapIdx fun i t' => stepTo seed ts (i + 1) t').modify idx
          (.addType (labelLocalname ty)) := by
      apply List.ext_getElem?
      intro i
      rw [List.getElem?_mapIdx, List.getElem?_modify, List.getElem?_mapIdx]
      by_cases hi : idx = i
      · subst hi
        cases (ts.filter TriplePattern.isHop)[idx]? with
        | none => rfl
        | some t' => simp [stepTo, htypes, TraversalStep.addType, addType]
      · cases (ts.filter TriplePattern.isHop)[i]? with
        | none => simp
        | some t' => simp [stepTo, htypes, hi]
    rw [hsteps]
    simp [attachType, siteOf, TraversalPlan.start]

/-- A hop is added at the end. -/
theorem planOf_hop {bindings : BTreeMap String BindingSite} (h : Located seed ts bindings)
    (ht : t.isHop = true) :
    planOf seed (ts ++ [t]) = { planOf seed ts with
      steps := (planOf seed ts).steps ++
        [⟨{ EdgePattern.any with label := t.verb.toTerm.label.map labelLocalname },
          { NodePattern.any with
            bind := t.object.asVar
            types := t.object.label.toList.map labelLocalname }, true⟩] } := by
  have hhops : (ts ++ [t]).filter TriplePattern.isHop = ts.filter TriplePattern.isHop ++ [t] := by
    rw [List.filter_append, List.filter_singleton, ht]
    rfl
  have htypes := typesAt_hop h ht
  have hlast := @typesAt_beyond seed ts _ (Nat.lt_succ_self _)
  simp only [planOf, hhops, List.mapIdx_append, List.mapIdx_singleton, stepTo, htypes]
  simp [hlast]

/-- One more triple of a supported form. -/
theorem compileTriple_planOf {bindings : BTreeMap String BindingSite} {s : String}
    (h : Located seed ts bindings) (hkeyword : Query.KeywordOnly [t])
    (hs : t.subject.asVar = some s) (hk : site seed ts s = some k)
    (hlabel : ∃ label, t.verb.toTerm.label = some label)
    (htype : t.isHop = false → ∃ ty, t.object.label = some ty) :
    ∃ bindings', compileTriple (planOf seed ts) bindings t =
      .ok (planOf seed (ts ++ [t]), bindings') ∧ Located seed (ts ++ [t]) bindings' := by
  obtain ⟨label, hlabel⟩ := hlabel
  have hcontains : bindings.contains s = true := by
    rw [Std.ExtTreeMap.contains_eq_isSome_getElem?, h.sites, hk]
    rfl
  have hkeyword' : label = "a" ↔ t.isHop = false := by
    cases hverb : t.verb with
    | isA =>
      rw [hverb] at hlabel
      simp [TriplePattern.isHop, hverb, (Option.some.inj hlabel).symm]
    | term p =>
      rw [hverb] at hlabel
      have hne : label ≠ "a" := fun ha => hkeyword t List.mem_cons_self p hverb (ha ▸ hlabel)
      simp [TriplePattern.isHop, hverb, hne]
  unfold compileTriple
  simp only [hs, hcontains, hlabel, Bool.not_true, Bool.false_eq_true, if_false]
  cases hhop : t.isHop with
  | false =>
    obtain ⟨ty, hty⟩ := htype hhop
    have hbinding : bindings[s]? = some (siteOf k) := by rw [h.sites, hk]; rfl
    refine ⟨bindings, ?_, ?_, ?_⟩
    · simp only [if_pos (hkeyword'.mpr hhop), hty, hbinding, planOf_type hhop hs hk hty]
    · intro u
      rw [h.sites, site_type hhop]
    · intro t' ht' hhop'
      obtain ht' | ht' := List.mem_append.mp ht'
      · obtain ⟨s', k', hs', hk'⟩ := h.types t' ht' hhop'
        exact ⟨s', k', hs', site_append hk'⟩
      · rw [List.mem_singleton.mp ht']
        exact ⟨s, k, hs, site_append hk⟩
  | true =>
    have hne : label ≠ "a" := fun ha => by simp [hkeyword'.mp ha] at hhop
    have htypes : ∀ t' ∈ ts ++ [t], t'.isHop = false →
        ∃ s k, t'.subject.asVar = some s ∧ site seed (ts ++ [t]) s = some k := by
      intro t' ht' hhop'
      obtain ht' | ht' := List.mem_append.mp ht'
      · obtain ⟨s', k', hs', hk'⟩ := h.types t' ht' hhop'
        exact ⟨s', k', hs', site_append hk'⟩
      · rw [List.mem_singleton.mp ht', hhop] at hhop'
        cases hhop'
    -- a constant introduces nothing
    have hconstant :
      t.object.asVar = none → ∀ u, bindings[u]? = (site seed (ts ++ [t]) u).map siteOf := by
      intro ho u
      rw [h.sites]
      cases hu : site seed ts u with
      | some k => rw [site_append hu]
      | none => rw [site_hop hhop hu, ho, if_neg (by simp)]
    simp only [if_neg hne, planOf_hop h hhop, hlabel]
    cases ho : t.object with
    | iri c => exact ⟨bindings, rfl, hconstant (by rw [ho]; rfl), htypes⟩
    | localName c => exact ⟨bindings, rfl, hconstant (by rw [ho]; rfl), htypes⟩
    | var v =>
      refine ⟨_, rfl, fun u => ?_, htypes⟩
      have hlength : (planOf seed ts).steps.length = (ts.filter TriplePattern.isHop).length :=
        List.length_mapIdx
      rw [Std.ExtTreeMap.contains_eq_isSome_getElem?, h.sites, Option.isSome_map]
      cases hv : site seed ts v with
      | some k =>
        rw [Option.isSome_some, if_pos rfl, h.sites]
        cases hu : site seed ts u with
        | some k => rw [site_append hu]
        | none =>
          have hvu : t.object.asVar ≠ some u := by
            rw [ho]
            rintro heq
            rw [← Option.some.inj heq, hv] at hu
            cases hu
          rw [site_hop hhop hu, if_neg hvu]
      | none =>
        rw [Option.isSome_none, if_neg (by simp), BTreeMap.get_insert, h.sites, hlength]
        by_cases hvu : v = u
        · subst hvu
          rw [if_pos rfl, site_hop hhop hv, if_pos (by rw [ho]; rfl)]
          rfl
        · rw [if_neg hvu]
          cases hu : site seed ts u with
          | some k => rw [site_append hu]
          | none =>
            rw [site_hop hhop hu, if_neg]
            rw [ho]
            exact fun heq => hvu (Option.some.inj heq)

/-- All triples of supported forms. -/
theorem compileTriples_planOf {bindings : BTreeMap String BindingSite} {seen : List String}
    {us : List TriplePattern} (h : Located seed ts bindings)
    (hseen : ∀ u ∈ seen, ∃ k, site seed ts u = some k) (hkeyword : Query.KeywordOnly us)
    (hscoped : ScopedFrom seen us) :
    compileTriples (planOf seed ts) bindings us = .ok (planOf seed (ts ++ us)) := by
  induction us generalizing ts bindings seen with
  | nil => rw [List.append_nil]; rfl
  | cons t us ih =>
    obtain ⟨⟨s, hs, hsubject⟩, hlabel, htype, hscoped⟩ := hscoped
    obtain ⟨k, hk⟩ := hseen s hs
    have hone : Query.KeywordOnly [t] := fun t' ht' =>
      hkeyword t' (List.mem_cons.mpr (Or.inl (List.mem_singleton.mp ht')))
    obtain ⟨bindings', hcompile, h'⟩ := compileTriple_planOf h hone hsubject hk hlabel htype
    have hseen' : ∀ u ∈ t.object.asVar.toList ++ seen, ∃ k, site seed (ts ++ [t]) u = some k := by
      intro u hu
      obtain hu | hu := List.mem_append.mp hu
      · rw [Option.mem_toList] at hu
        cases hhop : t.isHop with
        | false =>
          obtain ⟨ty, hty⟩ := htype hhop
          rw [Term.asVar_of_label hty] at hu
          cases hu
        | true =>
          cases hsite : site seed ts u with
          | some k => exact ⟨k, site_append hsite⟩
          | none => exact ⟨_, by rw [site_hop hhop hsite, if_pos hu]⟩
      · obtain ⟨k, hk⟩ := hseen u hu
        exact ⟨k, site_append hk⟩
    have hrest := ih h' hseen' (fun t' ht' => hkeyword t' (List.mem_cons_of_mem t ht')) hscoped
    rw [compileTriples, hcompile]
    rw [List.append_assoc] at hrest
    exact hrest

/-- A supported graph pattern is lowered to the plan that it denotes. -/
theorem lowerTriples_planOf (hkeyword : Query.KeywordOnly ts) (h : Supported ts) :
    ∃ v, (ts.head?.bind fun t => t.subject.asVar) = some v ∧
    lowerTriples ts = .ok (planOf v ts) := by
  obtain ⟨t, ht, v, hv, hscoped⟩ := h
  cases ts with
  | nil => cases ht
  | cons t' ts =>
    obtain rfl := Option.some.inj ht
    refine ⟨v, hv, ?_⟩
    have hlocated : Located v [] ((∅ : BTreeMap String BindingSite).insert v .seed) := by
      constructor
      · intro u
        rw [BTreeMap.get_insert]
        by_cases hu : v = u
        · rw [if_pos hu, site, if_pos hu.symm]
          rfl
        · rw [if_neg hu, site, if_neg (Ne.symm hu)]
          simp
      · intro t ht
        cases ht
    have hcompile := compileTriples_planOf hlocated (fun u (hu : u ∈ [v]) => by
      rw [List.mem_singleton.mp hu]
      exact ⟨0, site_seed⟩) hkeyword hscoped
    rw [List.nil_append] at hcompile
    unfold lowerTriples
    dsimp only
    cases hsubject : t'.subject with
    | var w =>
      rw [hsubject] at hv
      obtain rfl := Option.some.inj hv
      exact hcompile
    | iri c => rw [hsubject] at hv; cases hv
    | localName c => rw [hsubject] at hv; cases hv

/-- What can be lowered is among the supported forms. -/
theorem scopedFrom_of_supportedFrom {known : List String} (h : supportedFrom known ts = true) :
    ScopedFrom known ts := by
  induction ts generalizing known with
  | nil => trivial
  | cons t ts ih =>
    rw [supportedFrom, Bool.and_eq_true] at h
    obtain ⟨ht, hrest⟩ := h
    rw [TriplePattern.supported, Bool.and_eq_true, Option.any_eq_true, Option.any_eq_true] at ht
    obtain ⟨⟨s, hs, hknown⟩, label, hlabel, htype⟩ := ht
    refine ⟨⟨s, by simpa using hknown, hs⟩, ⟨label, hlabel⟩, fun hhop => ?_, ih hrest⟩
    cases hverb : t.verb with
    | term p => simp [TriplePattern.isHop, hverb] at hhop
    | isA =>
      rw [hverb] at hlabel
      rw [← Option.some.inj hlabel] at htype
      exact Option.isSome_iff_exists.mp (by simpa using htype)

theorem Supported.of_supported (h : supported ts = true) : Supported ts := by
  cases ts with
  | nil => cases h
  | cons t ts =>
    rw [supported, Option.any_eq_true] at h
    obtain ⟨v, hv, h⟩ := h
    exact ⟨t, rfl, v, hv, scopedFrom_of_supportedFrom h⟩

/-- The text of a constant does not matter. -/
theorem supportedFrom_congr {us : List TriplePattern} (h : List.Forall₂ Syntax.Alike ts us)
    (known : List String) : supportedFrom known ts = supportedFrom known us := by
  induction h generalizing known with
  | nil => rfl
  | cons ht _ ih =>
    rw [supportedFrom, supportedFrom, TriplePattern.supported, TriplePattern.supported, ht.subject,
      ht.verb, ht.var, ht.constant, ih]

theorem supported_congr {us : List TriplePattern} (h : List.Forall₂ Syntax.Alike ts us) :
    supported ts = supported us := by
  cases h with
  | nil => rfl
  | cons ht hts =>
    rw [supported, supported, ht.subject]
    exact congrArg (fun f => Option.any f _)
      (funext fun v => supportedFrom_congr (.cons ht hts) [v])

/-- Unsupported triples are reported. -/
theorem lowerTriples_unsupported {us : List TriplePattern} (hus : ¬Supported us) (hne : us ≠ [])
    (h : List.Forall₂ Syntax.Alike ts us) :
    ∃ message, lowerTriples ts = .error (.unsupported message) := by
  have hts : supported ts = false := by
    rw [supported_congr h]
    by_contra hs
    exact hus (.of_supported (by simpa using hs))
  obtain ⟨hs, -⟩ | ⟨-, ⟨rfl, -⟩ | hmessage⟩ := lowerTriples_supported ts
  · rw [hts] at hs
    cases hs
  · exact absurd (List.forall₂_nil_left_iff.mp h) hne
  · exact hmessage

/-- A verb is lowered to a hop unless its text is that of the keyword. -/
theorem compileTriples_length {plan plan' : TraversalPlan} {bindings : BTreeMap String BindingSite}
    (h : compileTriples plan bindings ts = .ok plan') :
    plan'.steps.length = plan.steps.length + ts.countP fun t =>
    t.verb.toTerm.label != some "a" := by
  induction ts generalizing plan bindings with
  | nil => rw [← Except.ok.inj h]; rfl
  | cons t ts ih =>
    rw [compileTriples] at h
    cases hfirst : compileTriple plan bindings t with
    | error e => rw [hfirst] at h; cases h
    | ok next =>
      obtain ⟨plan₁, bindings₁⟩ := next
      rw [hfirst] at h
      obtain ⟨s, label, -, -, hlabel, hcases⟩ := compileTriple_cases hfirst
      rw [ih h, List.countP_cons, hlabel]
      obtain ⟨rfl, ty, -, -, rfl⟩ | ⟨hne, v, -, -, rfl⟩ | ⟨hne, c, -, -, rfl⟩ := hcases
      · have hattach : (attachType plan bindings[s]? (labelLocalname ty)).steps.length =
            plan.steps.length := by
          unfold attachType
          split
          · exact List.length_modify ..
          · rfl
        rw [hattach]
        simp
      · simp [TraversalPlan.hop, hne]
        omega
      · simp [TraversalPlan.hop, hne]
        omega

theorem length_planOf : (planOf seed ts).steps.length = ts.countP TriplePattern.isHop := by
  rw [planOf, List.length_mapIdx, List.countP_eq_length_filter]

/-- If another verb has the text of the keyword, a hop is missing. -/
theorem keywordOnly_of_lowerTriples {plan : TraversalPlan} (h : lowerTriples ts = .ok plan)
    (hsteps : plan.steps.length = ts.countP TriplePattern.isHop) : Query.KeywordOnly ts := by
  have hcount : ts.countP TriplePattern.isHop =
      ts.countP fun t => t.verb.toTerm.label != some "a" := by
    cases ts with
    | nil => rfl
    | cons t ts =>
      unfold lowerTriples at h
      dsimp only at h
      split at h
      · rw [← hsteps, compileTriples_length h]
        exact Nat.zero_add _
      · cases h
  intro t ht p hverb hlabel
  have hsplit : ∀ us : List TriplePattern, us.countP (fun t => t.verb.toTerm.label != some "a") ≤
      us.countP TriplePattern.isHop := by
    intro us
    refine List.countP_mono_left fun t' _ ht' => ?_
    cases hverb' : t'.verb with
    | isA => rw [hverb'] at ht'; exact absurd ht' (by decide)
    | term p => simp [TriplePattern.isHop, hverb']
  obtain ⟨front, back, rfl⟩ := List.append_of_mem ht
  have hfront := hsplit front
  have hback := hsplit back
  have hone : (t.verb.toTerm.label != some "a") = false := by
    rw [hverb, Verb.toTerm, hlabel]
    decide
  have hhop : t.isHop = true := by simp [TriplePattern.isHop, hverb]
  simp only [List.countP_append, List.countP_cons, hone, hhop, if_true, Bool.false_eq_true,
    if_false] at hcount
  omega

namespace Syntax

/-- The parser recovers a query from a text: the triples, the selected variables, the limit and
the offset as they are written, and the plan. It reports a query that is not supported. -/
def Query.Recovered (q : Query) (text : String) : Prop :=
  (Supported q.denote.triples → (∃ rest, parseQuery text.toList = .ok (q.denote, rest)) ∧
    parse text = .ok q.denote.plan) ∧
  (¬Supported q.denote.triples → ∃ message, parse text = .error (.unsupported message))

/-- No verb is a CURIE with the prefix `a`. No CURIE is followed directly by a dot, unless the
query is not supported and the dot is the last of its triples. No other verb of a supported query
stands for the text of the keyword. -/
structure Query.Readable (q : Query) (text : String) : Prop where
  verbs : ∀ v ∈ q.verbs, ¬v.ReadAsKeyword
  supported : Supported q.denote.triples →
    lexis.Laid Apart q.tokens text.toList ∧ Sparql.Query.KeywordOnly q.denote.triples
  unsupported : ¬Supported q.denote.triples → lexis.Laid ApartInside q.tokens text.toList

/-- The selected variables, the limit and the offset of a query in a plan. -/
def finish (q : Sparql.Query) (plan : TraversalPlan) : TraversalPlan :=
  { plan with returnColumns := q.columns, skip := q.offset, limit := q.limit }

theorem parse_of_parseQuery {text : String} {q : Sparql.Query} {rest : List Char}
    (h : parseQuery text.toList = .ok (q, rest)) (hdone : skipWs rest = []) :
    parse text = (lowerTriples q.triples).map (finish q) := by
  rw [parse, h, ok_bind]
  dsimp only
  cases lowerTriples q.triples with
  | error e => rfl
  | ok plan =>
    rw [ok_bind]
    simp only [hdone, List.isEmpty_nil, if_true]
    rfl

/-- What a supported query is read as. -/
theorem parse_supported {q : Query} {text : String} (hverbs : ∀ v ∈ q.verbs, ¬v.ReadAsKeyword)
    (h : lexis.Laid Apart q.tokens text.toList) :
    (∃ rest, parseQuery text.toList = .ok (q.denote, rest)) ∧
      parse text = (lowerTriples q.denote.triples).map (finish q.denote) := by
  obtain ⟨triples, rest, hparse, hread, hdone⟩ := parseQuery_laid (S := Eq) (fun _ => rfl)
    (fun c ts rest hlayout hdot => absurd hdot (hlayout ⟨c, rfl⟩)) hverbs h
  rw [List.forall₂_eq_eq_eq] at hread
  subst hread
  exact ⟨⟨rest, hparse⟩, parse_of_parseQuery hparse hdone⟩

/-- A printed query is recovered exactly if it is readable. -/
theorem Query.recovered_iff {q : Query} {text : String}
    (h : lexis.Printed q.tokens text.toList) : q.Recovered text ↔ q.Readable text := by
  -- a parser that stops in the triples neither returns a plan nor reports an unsupported form
  have hstops : ¬(Stops (parseQuery text.toList) ∧ q.Recovered text) := by
    rintro ⟨⟨error, herror, hne⟩, hrecovered⟩
    by_cases hsupported : Supported q.denote.triples
    · obtain ⟨⟨rest, hparse⟩, -⟩ := hrecovered.1 hsupported
      rw [herror] at hparse
      cases hparse
    · obtain ⟨message, hparse⟩ := hrecovered.2 hsupported
      rw [parse, herror] at hparse
      exact hne message (Except.error.inj hparse)
  constructor
  · intro hrecovered
    have hverbs : ∀ v ∈ q.verbs, ¬v.ReadAsKeyword := fun v hv hverb =>
      hstops ⟨parseQuery_stops h (Or.inl ⟨v, hv, hverb⟩), hrecovered⟩
    refine ⟨hverbs, fun hsupported => ?_, fun _ => ?_⟩
    · obtain ⟨⟨rest, hquery⟩, hplan⟩ := hrecovered.1 hsupported
      obtain hlaid | hbreaks := h.laid_or_breaks Apart
      · refine ⟨hlaid, ?_⟩
        obtain ⟨-, hparse⟩ := parse_supported hverbs hlaid
        rw [hplan] at hparse
        cases hlower : lowerTriples q.denote.triples with
        | error e => rw [hlower] at hparse; cases hparse
        | ok plan =>
          rw [hlower] at hparse
          have hsteps := congrArg TraversalPlan.steps (Except.ok.inj hparse)
          refine keywordOnly_of_lowerTriples hlower ?_
          rw [← length_planOf]
          exact congrArg List.length hsteps.symm
      · exact absurd hquery (parseQuery_ne hbreaks rest)
    · obtain hlaid | hbreaks := h.laid_or_breaks ApartInside
      · exact hlaid
      · exact absurd ⟨parseQuery_stops h (Or.inr hbreaks), hrecovered⟩ hstops
  · intro hreadable
    refine ⟨fun hsupported => ?_, fun hunsupported => ?_⟩
    · obtain ⟨hlaid, hkeyword⟩ := hreadable.supported hsupported
      obtain ⟨hquery, hparse⟩ := parse_supported hreadable.verbs hlaid
      obtain ⟨v, hv, hlower⟩ := lowerTriples_planOf hkeyword hsupported
      refine ⟨hquery, ?_⟩
      rw [hparse, hlower, Sparql.Query.plan, hv]
      rfl
    · obtain ⟨triples, rest, hparse, hread, hdone⟩ := parseQuery_laid (S := Alike) Alike.refl
        (fun c ts rest hlayout hdot => ⟨hlayout ⟨c, rfl⟩ hdot, fun _ _ h => h⟩) hreadable.verbs
        (hreadable.unsupported hunsupported)
      obtain ⟨message, hlower⟩ := lowerTriples_unsupported hunsupported (by simp [denote]) hread
      refine ⟨message, ?_⟩
      rw [parse_of_parseQuery hparse hdone, hlower]
      rfl

/-- One spelling of each token. -/
def Token.canonical : Token → List Char
  | .keyword kw => kw.text.toList
  | .isA => ['a']
  | .prefixName ns => nsChars ns ++ [':']
  | .var v => '?' :: v.chars
  | .iri i => '<' :: (i.chars ++ ['>'])
  | .curie c => nsChars c.ns ++ ':' :: c.name.chars
  | .natural n => Nat.toDigits 10 n.toNat
  | .mark m => [m.char]

theorem Token.spelled_canonical (e : Token) : e.Spelled e.canonical := by
  cases e with
  | keyword kw => exact .keyword rfl
  | isA => exact .isA
  | prefixName ns => exact .prefixName ns
  | var v => exact .var v
  | iri i => exact .iri i
  | curie c => exact .curie c
  | natural n => exact .natural (Cypher.isDecimal_toDigits _)
  | mark m => exact .mark m

/-- Tokens with a blank before each. -/
def spaced (es : List Token) : List Char := es.flatMap fun e => ' ' :: e.canonical

/-- Nothing belongs to a token where a blank follows. -/
theorem Token.ends_blank (e : Token) {rest : List Char} (h : ∀ c ∈ rest.head?, c = ' ') :
    e.Ends rest := by
  have hends : ∀ c ∈ rest.head?, isIdentContinue c = false ∧ c ≠ ':' := by
    intro c hc
    rw [h c hc]
    decide
  cases e with
  | prefixName | iri | mark => trivial
  | isA => exact hends
  | keyword | var | curie | natural => exact fun c hc => (hends c hc).1

theorem laid_spaced {Q : Token → List Token → List Char → Prop} (hQ : OnlyDots Q)
    (es : List Token) :
    lexis.Laid Q es (spaced es) := by
  induction es with
  | nil => exact .nil (by simp [spaced])
  | cons e es ih =>
    have hblank : ∀ c ∈ (spaced es).head?, c = ' ' := by
      intro c hc
      cases es with
      | nil => cases hc
      | cons e es => exact (Option.some.inj hc).symm
    have hgap : ∀ c ∈ [' '], lexis.blank c = true := by
      intro c hc
      obtain rfl := List.mem_singleton.mp hc
      rfl
    refine .cons hgap e.spelled_canonical (e.ends_blank hblank) (hQ _ _ _ fun _ hdot => ?_) ih
    exact absurd (hblank '.' hdot) (by decide)

/-- A layout that goes wrong later. -/
theorem breaks_spaced {Q : Token → List Token → List Char → Prop} (hQ : OnlyDots Q)
    {us : List Token}
    {rest : List Char} (h : lexis.Breaks Q us (' ' :: rest)) (es : List Token) :
    lexis.Breaks Q (es ++ us) (spaced es ++ ' ' :: rest) := by
  induction es with
  | nil => exact h
  | cons e es ih =>
    have hblank : ∀ c ∈ (spaced es ++ ' ' :: rest).head?, c = ' ' := by
      intro c hc
      cases es with
      | nil => exact (Option.some.inj hc).symm
      | cons e es => exact (Option.some.inj hc).symm
    have hgap : ∀ c ∈ [' '], lexis.blank c = true := by
      intro c hc
      obtain rfl := List.mem_singleton.mp hc
      rfl
    have hthere := ih.there hgap e.spelled_canonical (e.ends_blank hblank)
      (hQ _ _ _ fun _ hdot => absurd (hblank '.' hdot) (by decide))
    simpa [spaced] using hthere

private theorem isIdent_letter {c : Char} (h : isIdentStart c = true) : Cypher.IsIdent [c] :=
  ⟨h, by simp⟩

private def orgName (c : Char) (h : isIdentStart c = true) : Cypher.Ident := ⟨[c], isIdent_letter h⟩

/-- `SELECT ?x WHERE { ?x a :T . }`. -/
private def typeQuery : Query where
  prefixes := []
  select := .vars (orgName 'x' (Eq.refl true)) []
  triple := ⟨.var (orgName 'x' (Eq.refl true)), .isA,
    .curie ⟨none, orgName 'T' (Eq.refl true)⟩⟩
  triples := []
  dot := true
  mods := ⟨none, none, false⟩

private theorem supported_typeQuery : Supported typeQuery.denote.triples :=
  ⟨_, rfl, "x", rfl, ⟨"x", List.mem_singleton.mpr rfl, rfl⟩, ⟨"a", rfl⟩,
    fun _ => ⟨"T", by simp [typeQuery, Triple.denote, Term.denote, Curie.denote, namespaces]; rfl⟩,
    trivial⟩

/-- A query with a blank before each token. -/
theorem Query.recovered_typeQuery : typeQuery.Recovered (.ofList (spaced typeQuery.tokens)) := by
  have hlaid := laid_spaced onlyDots_apart typeQuery.tokens
  rw [← @String.toList_ofList (spaced typeQuery.tokens)] at hlaid
  refine (Query.recovered_iff hlaid.printed).mpr ⟨?_, fun _ => ⟨hlaid, ?_⟩, fun h => ?_⟩
  · intro v hv
    obtain rfl := List.mem_singleton.mp hv
    exact id
  · intro t ht p hverb
    obtain rfl := List.mem_singleton.mp ht
    cases hverb
  · exact absurd supported_typeQuery h

/-- Without a blank before the dot the query asks for another type. -/
theorem dot_is_taken : ¬∀ (q : Query) (text : String), lexis.Printed q.tokens text.toList →
    q.Recovered text := by
  intro h
  have hmarks : lexis.Printed [.mark .dot, .mark .rightBrace] ['.', '\x7d'] :=
    @Lexis.Printed.cons _ lexis _ _ [] ['.'] ['\x7d'] (by simp) (.mark .dot) trivial
      (@Lexis.Printed.cons _ lexis _ _ [] ['\x7d'] [] (by simp) (.mark .rightBrace) trivial
        (.nil (by simp)))
  have hend : lexis.Breaks Apart [.curie ⟨none, orgName 'T' rfl⟩, .mark .dot, .mark .rightBrace]
      [' ', ':', 'T', '.', '\x7d'] := by
    refine @Lexis.Breaks.here _ lexis Apart (.curie ⟨none, orgName 'T' rfl⟩) _ [' '] [':', 'T'] _ ?_
      (.curie ⟨none, orgName 'T' rfl⟩) ?_ ?_ hmarks
    · intro c hc
      obtain rfl := List.mem_singleton.mp hc
      rfl
    · intro c hc
      obtain rfl := Option.some.inj hc
      rfl
    · exact fun hapart => hapart ⟨_, rfl⟩ rfl
  have hbreaks : lexis.Breaks Apart typeQuery.tokens _ :=
    breaks_spaced onlyDots_apart hend [.keyword .select, .var (orgName 'x' rfl), .keyword .where,
      .mark .leftBrace, .var (orgName 'x' rfl), .isA]
  rw [← @String.toList_ofList (spaced _ ++ _)] at hbreaks
  obtain ⟨⟨rest, hparse⟩, -⟩ := (h typeQuery _ hbreaks.printed).1 supported_typeQuery
  exact parseQuery_ne hbreaks rest hparse

end Syntax

end Sparql

end AtomrOntology
