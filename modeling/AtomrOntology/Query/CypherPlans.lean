import AtomrOntology.Query.CypherReads

/-!
# Plans of printed queries

A printed query is read as the plan that it denotes if its strings are ASCII. Any other string
comes out longer than it was written.
-/

namespace AtomrOntology

namespace Cypher

open Sparql (isIdentStart isIdentContinue)

/-- The first target of the name gets the negated pattern. -/
theorem attachToTarget_eq (name : String) (neg : NodePattern) (steps : List TraversalStep) :
    attachToTarget name neg steps =
      (steps.findIdx? fun step => step.target.bind == some name).map fun i =>
        steps.modify i fun step => { step with target := attachNotTo neg step.target } := by
  induction steps with
  | nil => rfl
  | cons step steps ih =>
    rw [attachToTarget, List.findIdx?_cons]
    by_cases hstep : step.target.bind = some name
    · simp [hstep]
    · rw [if_neg hstep, if_neg (by simpa using hstep), ih, Option.map_map, Option.map_map]
      rfl

/-- A negated pattern is bound to its subject. -/
theorem Negation.bind_pattern (neg : Negation) : neg.pattern.bind = neg.subject := by
  cases neg <;> rfl

/-- Without its binding, a negated pattern is what the negation denotes. -/
theorem Negation.unbound_pattern (neg : Negation) :
    { neg.pattern with bind := none } = neg.denote := by
  cases neg <;> rfl

/-- A negated pattern is attached to a node that has none. -/
theorem attachNotTo_pattern (neg : Negation) (n : Node) :
    attachNotTo neg.pattern n.denote = { n.denote with not := [neg.denote] } := by
  rw [attachNotTo, neg.unbound_pattern]
  rfl

variable {q : Query}

/-- Without a negation the nodes denote what they denote alone. -/
theorem Query.denoteNode_of_none (h : q.negation = none) (i : Nat) (n : Node) :
    q.denoteNode i n = n.denote := by
  rw [denoteNode, h]
  rfl

/-- At its place a negation is attached. -/
theorem Query.denoteNode_site {neg : Negation} {i : Nat} (h : q.negation = some neg)
    (hi : q.site neg.subject = i) (n : Node) :
    q.denoteNode i n = attachNotTo neg.pattern n.denote := by
  rw [denoteNode, h, attachNotTo_pattern, Option.filter_some_pos (by simpa using hi)]
  rfl

/-- Elsewhere it is not. -/
theorem Query.denoteNode_other {neg : Negation} {i : Nat} (h : q.negation = some neg)
    (hi : q.site neg.subject ≠ i) (n : Node) : q.denoteNode i n = n.denote := by
  rw [denoteNode, h, Option.filter_some_neg (by simpa using hi)]
  rfl

theorem Query.mapIdx_hops (h : ∀ i n, q.denoteNode (i + 1) n = n.denote) :
    (q.hops.mapIdx fun i hop => { hop.denote with target := q.denoteNode (i + 1) hop.target }) =
      q.hops.map Hop.denote := by
  apply List.ext_getElem?
  intro i
  rw [List.getElem?_mapIdx, List.getElem?_map]
  simp only [h]
  rfl

/-- Without a subject, a negation applies to the seed. -/
theorem Query.site_none (q : Query) : q.site none = 0 := by
  have hnone : (q.seed :: q.hops.map Hop.target).findIdx? (fun n =>
      (none : Option String).isSome && n.bind.map Ident.text == none) = none := by
    rw [List.findIdx?_eq_none_iff]
    intro n _
    rfl
  rw [site, hnone]
  rfl

/-- With the name of the seed it applies there too. -/
theorem Query.site_seed {name : String} (h : q.seed.bind.map Ident.text = some name) :
    q.site (some name) = 0 := by
  simp [site, List.findIdx?_cons, h]

/-- Otherwise it applies to the first hop whose target has the name, or to the seed. -/
theorem Query.site_hop {name : String} (h : q.seed.bind.map Ident.text ≠ some name) :
    q.site (some name) =
      ((q.hops.findIdx? fun hop => hop.target.bind.map Ident.text == some name).map (· + 1)).getD
      0 := by
  simp [site, List.findIdx?_cons, h, List.findIdx?_map, Function.comp_def]

/-- A negated pattern that belongs to the seed. -/
theorem Query.denote_of_site_zero {neg : Negation} (h : q.negation = some neg)
    (hsite : q.site neg.subject = 0) :
    q.denote = { q.path with
      seed := attachNotTo neg.pattern q.seed.denote
      returnColumns := (q.column :: q.columns).map Ident.text
      limit := q.limit } := by
  have hother : ∀ i n, q.denoteNode (i + 1) n = n.denote := fun i n =>
    denoteNode_other h (by rw [hsite]; exact (Nat.succ_ne_zero i).symm) n
  rw [denote, denoteNode_site h hsite, mapIdx_hops hother]
  rfl

/-- A negated pattern that belongs to a target. -/
theorem Query.denote_of_site_succ {neg : Negation} {i : Nat} (h : q.negation = some neg)
    (hsite : q.site neg.subject = i + 1) :
    q.denote = { q.path with
      steps := (q.hops.map Hop.denote).modify i fun step =>
        { step with target := attachNotTo neg.pattern step.target }
      returnColumns := (q.column :: q.columns).map Ident.text
      limit := q.limit } := by
  have hseed : q.denoteNode 0 q.seed = q.seed.denote :=
    denoteNode_other h (by rw [hsite]; exact Nat.succ_ne_zero i) _
  have hsteps : (q.hops.mapIdx fun i hop =>
      { hop.denote with target := q.denoteNode (i + 1) hop.target }) =
      (q.hops.map Hop.denote).modify i fun step =>
        { step with target := attachNotTo neg.pattern step.target } := by
    apply List.ext_getElem?
    intro j
    rw [List.getElem?_mapIdx, List.getElem?_modify, List.getElem?_map]
    by_cases hj : i = j
    · subst hj
      simp only [denoteNode_site h hsite, if_true]
      cases q.hops[i]? <;> rfl
    · have hne : q.site neg.subject ≠ j + 1 := by omega
      simp only [denoteNode_other h hne, if_neg hj]
      cases q.hops[j]? <;> rfl
  rw [denote, hseed, hsteps]
  rfl

/-- The parser attaches the negated pattern where the query says. -/
theorem Query.plan_eq_denote (q : Query) : q.plan = q.denote := by
  cases hneg : q.negation with
  | none =>
    have hnode := denoteNode_of_none hneg
    rw [plan, denote, hneg, hnode, mapIdx_hops fun i n => hnode (i + 1) n]
    rfl
  | some neg =>
    rw [plan, hneg]
    simp only [applyNegation, neg.bind_pattern]
    cases hsubject : neg.subject with
    | none =>
      rw [denote_of_site_zero hneg (hsubject ▸ q.site_none)]
      rfl
    | some name =>
      by_cases hseed : q.seed.bind.map Ident.text = some name
      · rw [denote_of_site_zero hneg (hsubject ▸ site_seed hseed)]
        have hpath : q.path.seed.bind = some name := hseed
        simp only [if_pos hpath]
        rfl
      · have hpath : q.path.seed.bind ≠ some name := hseed
        have hsite := site_hop hseed
        have hfind : (q.path.steps.findIdx? fun step => step.target.bind == some name) =
            q.hops.findIdx? fun hop => hop.target.bind.map Ident.text == some name := by
          rw [path, List.findIdx?_map]
          rfl
        simp only [if_neg hpath, attachToTarget_eq, hfind]
        cases hidx : q.hops.findIdx? fun hop => hop.target.bind.map Ident.text == some name with
        | none =>
          rw [hidx] at hsite
          rw [denote_of_site_zero hneg (hsubject ▸ hsite)]
          rfl
        | some i =>
          rw [hidx] at hsite
          rw [denote_of_site_succ hneg (hsubject ▸ hsite)]
          rfl

/-- A printed query is read as what it denotes with its strings misread. -/
theorem parse_printed {q : Query} {text : String} (hv : q.InOrder)
    (h : lexis.Printed q.tokens text.toList) : parse text = .ok (q.map misread).denote := by
  obtain ⟨rest, hparse, hrest⟩ := parseQuery_printed hv h
  have hdone : skipWs rest = [] := hrest.done
  rw [parse, hparse, Query.plan_eq_denote]
  simp only [bind, Except.bind, hdone, List.isEmpty_nil, if_true]
  rfl

/-- The body of a literal with as few escapes as possible. -/
def escapeText (s : List Char) : List Char :=
  s.flatMap fun c => if c = '"' ∨ c = '\\' then ['\\', c] else [c]

/-- An escaped string is a body of a literal. -/
theorem literalText_escapeText (s : List Char) : LiteralText (escapeText s) s := by
  induction s with
  | nil => exact .nil
  | cons c s ih =>
    rw [escapeText, List.flatMap_cons]
    by_cases hquote : c = '"'
    · subst hquote
      exact .quote ih
    · by_cases hescape : c = '\\'
      · subst hescape
        exact .backslash ih
      · rw [if_neg (by simp [hquote, hescape])]
        exact .plain hquote hescape ih

/-- Decimal digits spell a number. -/
theorem isDecimal_toDigits (n : Nat) : IsDecimal n (Nat.toDigits 10 n) where
  nonempty := Nat.toDigits_ne_nil
  ofDigits c hc := by
    have hdigit := Nat.isDigit_of_mem_toDigits (by decide) (by decide) hc
    simpa [Char.isDigit, isAsciiDigit, Char.le_def] using hdigit
  value := by
    rw [number, ← Nat.ofDigitChars_eq_foldl, Nat.ofDigitChars_toDigits (by decide) (by decide)]

/-- One spelling of each token. -/
def Token.canonical : Token → List Char
  | .name i => i.chars
  | .keyword kw => kw.text.toList
  | .natural n => Nat.toDigits 10 n.toNat
  | .integer i =>
    if i.toInt < 0 then '-' :: Nat.toDigits 10 i.toInt.natAbs else Nat.toDigits 10 i.toInt.natAbs
  | .string s => '"' :: (escapeText s.toList ++ ['"'])
  | .mark m => m.chars

/-- Every token can be spelled. -/
theorem Token.spelled_canonical (t : Token) : t.Spelled t.canonical := by
  cases t with
  | name i => exact .name i
  | keyword kw => exact .keyword rfl
  | natural n => exact .natural (isDecimal_toDigits _)
  | integer i =>
    rw [canonical]
    split
    · exact .negative (isDecimal_toDigits _) (by omega)
    · exact .positive (isDecimal_toDigits _) (by omega)
  | string s => exact .string (literalText_escapeText _)
  | mark m => exact .mark m

/-- A query with a blank before each token. -/
def Query.text (q : Query) : String := .ofList (q.tokens.flatMap fun t => ' ' :: t.canonical)

/-- Tokens with blanks between them are printed. -/
theorem printed_spaced (ts : List Token) :
    lexis.Printed ts (ts.flatMap fun t => ' ' :: t.canonical) := by
  induction ts with
  | nil => exact .nil (by simp)
  | cons t ts ih =>
    have hends : t.Ends (ts.flatMap fun t => ' ' :: t.canonical) := by
      have hblank : ∀ c ∈ (ts.flatMap fun t => ' ' :: t.canonical).head?,
          isIdentContinue c = false := by
        intro c hc
        cases ts with
        | nil => cases hc
        | cons t ts =>
          obtain rfl := Option.some.inj hc
          rfl
      cases t <;> first | exact hblank | trivial
    have hgap : ∀ c ∈ [' '], lexis.blank c = true := by
      intro c hc
      obtain rfl := List.mem_singleton.mp hc
      rfl
    exact .cons hgap t.spelled_canonical hends ih

/-- Every query can be written. -/
theorem Query.printed_text (q : Query) : lexis.Printed q.tokens q.text.toList := by
  rw [text, String.toList_ofList]
  exact printed_spaced q.tokens

end Cypher

end AtomrOntology
