import AtomrOntology.Query.Answers

/-!
# The supported forms

Triple patterns are lowered exactly if every subject is a variable that the seed or an earlier
hop introduced, no verb is a variable, and what is written after the type verb is no variable.
-/

namespace AtomrOntology

namespace Sparql

/-- Whether a triple can be lowered when some variables are introduced. -/
def TriplePattern.supported (known : List String) (t : TriplePattern) : Bool :=
  t.subject.asVar.any known.contains &&
    t.verb.toTerm.label.any fun label => label != "a" || t.object.label.isSome

/-- Whether some triples can be lowered in order. The object of a triple is introduced. -/
def supportedFrom : List String → List TriplePattern → Bool
  | _, [] => true
  | known, t :: ts => t.supported known && supportedFrom (t.object.asVar.toList ++ known) ts

/-- Whether a graph pattern is among the supported forms. -/
def supported : List TriplePattern → Bool
  | [] => false
  | t :: ts => t.subject.asVar.any fun v => supportedFrom [v] (t :: ts)

/-- One triple. -/
theorem compileTriple_supported {known : List String} (plan : TraversalPlan)
    {bindings : BTreeMap String BindingSite} (t : TriplePattern)
    (h : ∀ v, v ∈ bindings ↔ v ∈ known) :
    (t.supported known = true ∧ ∃ plan' bindings',
      compileTriple plan bindings t = .ok (plan', bindings') ∧
        ∀ v, v ∈ bindings' ↔ v ∈ t.object.asVar.toList ++ known) ∨
    (t.supported known = false ∧ ∃ message,
      compileTriple plan bindings t = .error (.unsupported message)) := by
  unfold compileTriple TriplePattern.supported
  cases hs : t.subject.asVar with
  | none => exact Or.inr ⟨rfl, _, rfl⟩
  | some s =>
    have hcontains : bindings.contains s = known.contains s := by
      rw [Bool.eq_iff_iff, Std.ExtTreeMap.contains_iff_mem, List.contains_iff_mem, h s]
    by_cases hbound : known.contains s = true
    · simp only [hcontains, hbound, Option.any_some, Bool.true_and, Bool.not_true,
        Bool.false_eq_true, if_false]
      cases hlabel : t.verb.toTerm.label with
      | none => exact Or.inr ⟨rfl, _, rfl⟩
      | some label =>
        by_cases ha : label = "a"
        · cases hobject : t.object with
          | var v =>
            simp only [if_pos ha]
            exact Or.inr ⟨by simp [ha, Term.label], _, rfl⟩
          | iri ty =>
            simp only [if_pos ha]
            exact Or.inl ⟨by simp [Term.label], _, _, rfl, by simpa [Term.asVar] using h⟩
          | localName ty =>
            simp only [if_pos ha]
            exact Or.inl ⟨by simp [Term.label], _, _, rfl, by simpa [Term.asVar] using h⟩
        · simp only [ha, if_false]
          refine Or.inl ⟨by simp [ha], ?_⟩
          cases hobject : t.object with
          | var v =>
            refine ⟨_, _, rfl, fun w => ?_⟩
            by_cases hv : v ∈ bindings
            · rw [if_pos (by simpa using hv), h w]
              simp only [Term.asVar, Option.toList_some, List.singleton_append, List.mem_cons]
              exact ⟨Or.inr, fun hw => hw.elim (fun heq => heq ▸ (h v).mp hv) id⟩
            · rw [if_neg (by simpa using hv), BTreeMap.mem_insert, h w]
              simp [Term.asVar, eq_comm]
          | iri c => exact ⟨_, _, rfl, by simpa [Term.asVar] using h⟩
          | localName c => exact ⟨_, _, rfl, by simpa [Term.asVar] using h⟩
    · rw [Bool.not_eq_true] at hbound
      have hunbound : (!bindings.contains s) = true := by rw [hcontains, hbound, Bool.not_false]
      exact Or.inr ⟨by rw [Option.any_some, hbound, Bool.false_and], _, if_pos hunbound⟩

/-- Triples in order: they are lowered if they are supported. -/
theorem compileTriples_supported {known : List String} (plan : TraversalPlan)
    {bindings : BTreeMap String BindingSite} (ts : List TriplePattern)
    (h : ∀ v, v ∈ bindings ↔ v ∈ known) :
    (supportedFrom known ts = true ∧ ∃ plan', compileTriples plan bindings ts = .ok plan') ∨
    (supportedFrom known ts = false ∧
      ∃ message, compileTriples plan bindings ts = .error (.unsupported message)) := by
  induction ts generalizing known plan bindings with
  | nil => exact Or.inl ⟨rfl, plan, rfl⟩
  | cons t ts ih =>
    rw [compileTriples, supportedFrom]
    obtain ⟨ht, plan', bindings', hcompile, hknown⟩ | ⟨ht, message, hcompile⟩ :=
      compileTriple_supported plan t h
    · rw [hcompile, ht, Bool.true_and]
      exact ih _ hknown
    · rw [hcompile, ht, Bool.false_and]
      exact Or.inr ⟨rfl, message, rfl⟩

/-- A graph pattern is lowered exactly if it is supported. -/
theorem lowerTriples_supported (ts : List TriplePattern) :
    (supported ts = true ∧ ∃ plan, lowerTriples ts = .ok plan) ∨
    (supported ts = false ∧ (ts = [] ∧ lowerTriples ts = .error .noTriples ∨
      ∃ message, lowerTriples ts = .error (.unsupported message))) := by
  cases ts with
  | nil => exact Or.inr ⟨rfl, Or.inl ⟨rfl, rfl⟩⟩
  | cons t ts =>
    unfold lowerTriples supported
    dsimp only
    cases hs : t.subject with
    | var v =>
      simp only [Term.asVar, Option.any_some]
      have hseed : ∀ u, u ∈ (∅ : BTreeMap String BindingSite).insert v .seed ↔ u ∈ [v] := by
        intro u
        rw [BTreeMap.mem_insert, List.mem_singleton]
        simp [eq_comm]
      obtain h | ⟨hsupported, h⟩ := compileTriples_supported
        (.start { NodePattern.any with bind := some v }) (t :: ts) hseed
      · exact Or.inl h
      · exact Or.inr ⟨hsupported, Or.inr h⟩
    | iri c => exact Or.inr ⟨rfl, Or.inr ⟨_, rfl⟩⟩
    | localName c => exact Or.inr ⟨rfl, Or.inr ⟨_, rfl⟩⟩

end Sparql

end AtomrOntology
