import AtomrOntology.Rdf.ReadsBack

/-!
# Marks where a term is due

No term starts with a dot, a semicolon or a comma, so the parser does not get past one of
them where a term is due. It gets there when a word without blanks is left before a mark: the
word is taken for a subject or a predicate, and then nothing is left for its clause.
-/

namespace AtomrOntology

namespace Turtle

/-- A mark is all that comes next. -/
def Dangling (cs : List Char) : Prop :=
  ∃ q rest, skipWs cs = q :: rest ∧ (q = '.' ∨ q = ';' ∨ q = ',')

variable {vocab : Vocabulary} {q : Char} {cs rest : List Char}

/-- Marks end a token. -/
theorem endsToken_mark (hq : q = '.' ∨ q = ';' ∨ q = ',') : endsToken q = true := by
  obtain rfl | rfl | rfl := hq <;> rfl

/-- Nothing is skipped before a mark. -/
theorem skipWs_mark (hq : q = '.' ∨ q = ';' ∨ q = ',') : skipWs (q :: rest) = q :: rest := by
  obtain rfl | rfl | rfl := hq <;> rfl

/-- What starts with a mark dangles. -/
theorem Dangling.mark (hq : q = '.' ∨ q = ';' ∨ q = ',') : Dangling (q :: rest) :=
  ⟨q, rest, skipWs_mark hq, hq⟩

theorem Dangling.space (h : Dangling cs) : Dangling (' ' :: cs) := h

/-- No term starts with a mark. -/
theorem parseTerm_mark (hq : q = '.' ∨ q = ';' ∨ q = ',') (r : Subject × List Char) :
    parseIriOrCurieOrBlank vocab (q :: rest) ≠ .ok r := by
  have hopen : stripPrefix ['<'] (q :: rest) = none := by
    obtain rfl | rfl | rfl := hq <;> simp [stripPrefix]
  have hblank : stripPrefix ['_', ':'] (q :: rest) = none := by
    obtain rfl | rfl | rfl := hq <;> simp [stripPrefix]
  have htoken : (q :: rest).takeWhile (!endsToken ·) = [] := by
    rw [List.takeWhile_cons, endsToken_mark hq]
    rfl
  rw [parseIriOrCurieOrBlank, hopen, hblank]
  simp only [htoken]
  intro h
  cases h

/-- Nor does a predicate. -/
theorem parsePredicate_mark (hq : q = '.' ∨ q = ';' ∨ q = ',') (r : Iri × List Char) :
    parsePredicate vocab (q :: rest) ≠ .ok r := by
  have ha : stripPrefix ['a'] (q :: rest) = none := by
    obtain rfl | rfl | rfl := hq <;> simp [stripPrefix]
  rw [parsePredicate, ha]
  intro h
  obtain ⟨term, hterm, -⟩ := bind_eq_ok.mp h
  exact parseTerm_mark hq term hterm

/-- Nor does an object. -/
theorem parseObject_mark (hq : q = '.' ∨ q = ';' ∨ q = ',') (r : Object × List Char) :
    parseObject vocab (q :: rest) ≠ .ok r := by
  have hquote : stripPrefix ['"'] (q :: rest) = none := by
    obtain rfl | rfl | rfl := hq <;> simp [stripPrefix]
  rw [parseObject, hquote]
  intro h
  obtain ⟨term, hterm, -⟩ := bind_eq_ok.mp h
  exact parseTerm_mark hq term hterm

namespace Dangling

/-- Dangling text is no list of objects. -/
theorem parseObjects_ne (h : Dangling cs) (r : List Object × List Char) :
    parseObjects vocab cs ≠ .ok r := by
  obtain ⟨q, rest, hskip, hq⟩ := h
  rw [parseObjects_eq, hskip]
  intro h
  obtain ⟨object, hobject, -⟩ := bind_eq_ok.mp h
  exact parseObject_mark hq object hobject

/-- Nor is it a list of predicates. -/
theorem parsePredicates_ne (h : Dangling cs) (subject : Subject) (r : List Triple × List Char) :
    parsePredicates vocab subject cs ≠ .ok r := by
  obtain ⟨q, rest, hskip, hq⟩ := h
  rw [parsePredicates_eq, hskip]
  intro h
  obtain ⟨predicate, hpredicate, -⟩ := bind_eq_ok.mp h
  exact parsePredicate_mark hq predicate hpredicate

end Dangling

/-- A character of a word: it is not skipped and does not open an IRI. -/
def inWord (c : Char) : Bool := !(isWhitespace c || c == '#' || c == '<')

/-- What comes after the first token of a word is a mark. -/
theorem dangling_dropWhile {word : List Char} (hword : ∀ c ∈ word, inWord c = true)
    (hq : q = '.' ∨ q = ';' ∨ q = ',') :
    Dangling ((word ++ ' ' :: q :: rest).dropWhile (!endsToken ·)) := by
  induction word with
  | nil => exact (Dangling.mark hq).space
  | cons c word ih =>
    rw [List.cons_append, List.dropWhile_cons]
    split
    · exact ih fun d hd => hword d (List.mem_cons_of_mem c hd)
    · next hends =>
      have hc := hword c List.mem_cons_self
      have hmark : c = '.' ∨ c = ';' ∨ c = ',' := by
        simp only [inWord, Bool.not_eq_true', Bool.or_eq_false_iff] at hc
        simpa [endsToken, hc.1.1, ← or_iff_not_imp_left] using hends
      exact .mark hmark

/-- A term at the start of a word is followed by a mark. -/
theorem dangling_of_parseTerm {word : List Char} (hword : ∀ c ∈ word, inWord c = true)
    (hq : q = '.' ∨ q = ';' ∨ q = ',') {term : Subject} {after : List Char}
    (h : parseIriOrCurieOrBlank vocab (word ++ ' ' :: q :: rest) = .ok (term, after)) :
    Dangling after := by
  unfold parseIriOrCurieOrBlank at h
  split at h
  · next body hopen =>
    have htext := stripPrefix_eq_some.mp hopen
    cases word with
    | nil => cases htext
    | cons c word =>
      cases htext
      exact absurd (hword '<' List.mem_cons_self) (by decide)
  · split at h
    · next label hblank =>
      have htext := stripPrefix_eq_some.mp hblank
      cases h
      cases word with
      | nil => cases htext
      | cons c word =>
        obtain ⟨-, htext⟩ := List.cons.inj htext
        cases word with
        | nil => cases htext
        | cons d word =>
          obtain ⟨-, rfl⟩ := List.cons.inj htext
          exact dangling_dropWhile (fun e he =>
            hword e (List.mem_cons_of_mem c (List.mem_cons_of_mem d he))) hq
    · dsimp only at h
      split at h
      · cases h
      · split at h
        · cases h
          exact dangling_dropWhile hword hq
        · cases h

/-- A word before a mark is no clause. -/
theorem parsePredicates_word {word : List Char} (hword : ∀ c ∈ word, inWord c = true)
    (hq : q = '.' ∨ q = ';' ∨ q = ',') (subject : Subject) (r : List Triple × List Char) :
    parsePredicates vocab subject (word ++ ' ' :: q :: rest) ≠ .ok r := by
  cases word with
  | nil => exact (Dangling.mark hq).space.parsePredicates_ne subject r
  | cons c word =>
    have hskip : skipWs (c :: word ++ ' ' :: q :: rest) = c :: word ++ ' ' :: q :: rest := by
      have hc := hword c List.mem_cons_self
      simp only [inWord, Bool.not_eq_true', Bool.or_eq_false_iff, beq_eq_false_iff_ne] at hc
      exact skipWs_append _ ⟨c, rfl, hc.1⟩
    intro h
    rw [parsePredicates_eq, hskip] at h
    obtain ⟨⟨predicate, after⟩, hpredicate, h⟩ := bind_eq_ok.mp h
    obtain ⟨objects, hobjects, -⟩ := bind_eq_ok.mp h
    refine Dangling.parseObjects_ne ?_ objects hobjects
    obtain ⟨ha, hblank, -⟩ | ⟨hterm, -⟩ := parsePredicate_cases hpredicate
    · -- the `a` stands alone
      obtain ⟨rfl, rfl⟩ := List.cons.inj (stripPrefix_eq_some.mp ha)
      cases word with
      | nil => exact (Dangling.mark hq).space
      | cons d word =>
        have hd := hword d (List.mem_cons_of_mem _ List.mem_cons_self)
        simp only [inWord, Bool.not_eq_true', Bool.or_eq_false_iff] at hd
        simp [hd.1.1] at hblank
    · exact dangling_of_parseTerm hword hq hterm

/-- A word before a mark is no statement. -/
theorem parseStatements_word {word : List Char} (hword : ∀ c ∈ word, inWord c = true)
    (hq : q = '.' ∨ q = ';' ∨ q = ',') (triples : List Triple) :
    parseStatements vocab (word ++ ' ' :: q :: rest) ≠ .ok triples := by
  have hskip : skipWs (word ++ ' ' :: q :: rest) = word ++ ' ' :: q :: rest ∨
      skipWs (word ++ ' ' :: q :: rest) = q :: rest := by
    cases word with
    | nil => exact Or.inr (skipWs_mark hq)
    | cons c word =>
      have hc := hword c List.mem_cons_self
      simp only [inWord, Bool.not_eq_true', Bool.or_eq_false_iff, beq_eq_false_iff_ne] at hc
      exact Or.inl (skipWs_append _ ⟨c, rfl, hc.1⟩)
  intro h
  rw [parseStatements_eq] at h
  split at h
  · next hnil =>
    rw [hnil] at hskip
    simp at hskip
  · obtain ⟨statement, hstatement, -⟩ := bind_eq_ok.mp h
    obtain ⟨⟨subject, after⟩, hsubject, hpredicates⟩ := bind_eq_ok.mp hstatement
    obtain hskip | hskip := hskip
    · rw [hskip] at hsubject
      exact (dangling_of_parseTerm hword hq hsubject).parsePredicates_ne subject statement
        hpredicates
    · rw [hskip] at hsubject
      exact parseTerm_mark hq _ hsubject

/-- Only a part of a text is taken for an IRI: it goes on with a mark and a word. -/
structure Cuts (vocab : Vocabulary) (q : Char) (text : List Char) : Prop where
  starts : ∃ c ∈ text.head?, isWhitespace c = false ∧ c ≠ '#'
  noQuote : text.head? ≠ some '"'
  mark : q = '.' ∨ q = ';' ∨ q = ','
  cuts : ∃ iri word, (∀ c ∈ word, inWord c = true) ∧
    ∀ rest, parseIriOrCurieOrBlank vocab (text ++ rest) = .ok (.iri iri, q :: (word ++ rest))

/-- A blank and a mark are next. -/
def MarkNext (cs : List Char) : Prop :=
  ∃ q rest, (q = '.' ∨ q = ';' ∨ q = ',') ∧ cs = ' ' :: q :: rest

theorem MarkNext.continues {text : List Char} {clauses : List (Iri × Object)}
    (h : Continues vocab text clauses) (hrest : MarkNext rest) : MarkNext (text ++ rest) := by
  obtain ⟨cs, rfl, -⟩ := h
  cases cs with
  | nil => exact hrest
  | cons c cs => exact ⟨';', _, Or.inr (Or.inl rfl), rfl⟩

namespace Cuts

variable {text more : List Char}

/-- A subject that is cut has no predicate. -/
theorem parseStatements_ne (h : Cuts vocab q text) (rest : List Char) (triples : List Triple) :
    parseStatements vocab (text ++ rest) ≠ .ok triples := by
  obtain ⟨iri, word, -, hcuts⟩ := h.cuts
  intro hok
  rw [parseStatements_eq, skipWs_append _ h.starts] at hok
  split at hok
  · next hnil =>
    obtain ⟨c, hc, -⟩ := h.starts
    rw [(List.append_eq_nil_iff.mp hnil).1] at hc
    cases hc
  · obtain ⟨statement, hstatement, -⟩ := bind_eq_ok.mp hok
    obtain ⟨⟨subject, after⟩, hsubject, hpredicates⟩ := bind_eq_ok.mp hstatement
    rw [hcuts] at hsubject
    cases hsubject
    exact (Dangling.mark h.mark).parsePredicates_ne _ statement hpredicates

/-- Where an object is cut and no other object follows, the statement does not end well, or
the next one does not. -/
theorem clause_ne (h : Cuts vocab q text) (hcomma : q ≠ ',') {before predicateText : List Char}
    (hbefore : ∀ d ∈ before, isWhitespace d) {predicate : Iri}
    (hpredicate : Reads (parsePredicate vocab) predicateText predicate) (hmore : MarkNext more)
    {subject : Subject} {r : List Triple × List Char}
    (hr : parsePredicates vocab subject
      (before ++ (predicateText ++ ' ' :: (text ++ more))) = .ok r)
    (triples : List Triple) : parseStatements vocab r.2 ≠ .ok triples := by
  obtain ⟨iri, word, hword, hcuts⟩ := h.cuts
  obtain ⟨p, rest, hp, rfl⟩ := hmore
  have hskip : skipWs (before ++ (predicateText ++ ' ' :: (text ++ ' ' :: p :: rest))) =
      predicateText ++ ' ' :: (text ++ ' ' :: p :: rest) := by
    rw [skipWs, List.dropWhile_append_of_pos]
    · exact skipWs_append _ hpredicate.starts
    · intro d hd
      rw [hbefore d hd]
      rfl
  have hquote : stripPrefix ['"'] (text ++ ' ' :: p :: rest) = none := by
    obtain ⟨c, hc, -⟩ := h.starts
    have hhead := h.noQuote
    cases text with
    | nil => cases hc
    | cons d text => simpa [stripPrefix, eq_comm] using hhead
  have hobject : parseObject vocab (text ++ ' ' :: p :: rest) =
      .ok (.iri iri, q :: (word ++ ' ' :: p :: rest)) := by
    rw [parseObject, hquote, hcuts]
    rfl
  have hstrip : stripPrefix [','] (q :: (word ++ ' ' :: p :: rest)) = none := by
    simp [stripPrefix, Ne.symm hcomma]
  have hobjects : parseObjects vocab (' ' :: (text ++ ' ' :: p :: rest)) =
      .ok ([.iri iri], q :: (word ++ ' ' :: p :: rest)) := by
    rw [parseObjects_eq, skipWs_space, skipWs_append _ h.starts, hobject]
    simp only [bind, Except.bind, skipWs_mark h.mark, hstrip]
    rfl
  rw [parsePredicates_eq, hskip, hpredicate.reads] at hr
  simp only [bind, Except.bind, hobjects] at hr
  obtain rfl | rfl | rfl := h.mark
  · -- the statement ends, and the word is left for the next one
    have hsemicolon : stripPrefix [';'] ('.' :: (word ++ ' ' :: p :: rest)) = none := by
      simp [stripPrefix]
    have hdot : stripPrefix ['.'] ('.' :: (word ++ ' ' :: p :: rest)) =
        some (word ++ ' ' :: p :: rest) := stripPrefix_append ['.'] _
    simp only [hsemicolon, hdot] at hr
    cases hr
    exact parseStatements_word hword hp triples
  · -- the word is left for the next clause
    have hsemicolon : stripPrefix [';'] (';' :: (word ++ ' ' :: p :: rest)) =
        some (word ++ ' ' :: p :: rest) := stripPrefix_append [';'] _
    simp only [hsemicolon] at hr
    obtain ⟨others, hothers, -⟩ := bind_eq_ok.mp hr
    exact absurd hothers (parsePredicates_word hword hp subject others)
  · exact absurd rfl hcomma

/-- The same after clauses that read back. -/
theorem clauses_ne (h : Cuts vocab q text) (hcomma : q ≠ ',') {predicateText : List Char}
    {predicate : Iri} (hpredicate : Reads (parsePredicate vocab) predicateText predicate)
    (hmore : MarkNext more) {subject : Subject} (cs : List (Clause vocab)) (before : List Char)
    (hbefore : ∀ d ∈ before, isWhitespace d) {r : List Triple × List Char}
    (hr : parsePredicates vocab subject (before ++ (cs.flatMap (·.text ++ " ;\n  ".toList) ++
      (predicateText ++ ' ' :: (text ++ more)))) = .ok r)
    (triples : List Triple) : parseStatements vocab r.2 ≠ .ok triples := by
  induction cs generalizing before r with
  | nil => exact h.clause_ne hcomma hbefore hpredicate hmore hr triples
  | cons c cs ih =>
    have htext : before ++ ((c :: cs).flatMap (·.text ++ " ;\n  ".toList) ++
        (predicateText ++ ' ' :: (text ++ more))) =
        before ++ (c.text ++ (' ' :: ';' :: (['\n', ' ', ' '] ++
          (cs.flatMap (·.text ++ " ;\n  ".toList) ++
            (predicateText ++ ' ' :: (text ++ more)))))) := by
      simp
    have hobjects := c.parseObjects_objectText ';' (['\n', ' ', ' '] ++
      (cs.flatMap (·.text ++ " ;\n  ".toList) ++ (predicateText ++ ' ' :: (text ++ more))))
      (by decide)
    have hsemicolon : ∀ r, stripPrefix [';'] (';' :: r) = some r := stripPrefix_append [';']
    rw [htext, parsePredicates_eq, c.parsePredicate_text _ _ hbefore] at hr
    simp only [bind, Except.bind, hobjects, hsemicolon] at hr
    obtain ⟨others, hothers, hpure⟩ := bind_eq_ok.mp hr
    cases hpure
    exact @ih ['\n', ' ', ' '] (by simp [isWhitespace]) others hothers

/-- A statement whose first object is cut. -/
theorem first_ne (h : Cuts vocab q text) (hcomma : q ≠ ',')
    {subjectText predicateText : List Char} {subject : Subject} {predicate : Iri}
    (hsubject : Reads (parseIriOrCurieOrBlank vocab) subjectText subject)
    (hpredicate : Reads (parsePredicate vocab) predicateText predicate) (hmore : MarkNext more)
    (triples : List Triple) :
    parseStatements vocab (subjectText ++ ' ' :: (predicateText ++ ' ' :: (text ++ more))) ≠
      .ok triples := by
  intro hok
  rw [parseStatements_eq, skipWs_append _ hsubject.starts, if_neg (by simp)] at hok
  obtain ⟨⟨statement, after⟩, hstatement, hok⟩ := bind_eq_ok.mp hok
  obtain ⟨others, hothers, -⟩ := bind_eq_ok.mp hok
  rw [parseTriples, hsubject.reads] at hstatement
  exact h.clauses_ne hcomma hpredicate hmore [] [' '] (by simp [isWhitespace]) hstatement others
    hothers

/-- A statement with a later object that is cut. -/
theorem later_ne (h : Cuts vocab q text) (hcomma : q ≠ ',')
    {subjectText between predicateText : List Char} {subject : Subject} {predicate : Iri}
    {clauses : List (Iri × Object)}
    (hsubject : Reads (parseIriOrCurieOrBlank vocab) subjectText subject) (c : Clause vocab)
    (hbetween : Continues vocab between clauses)
    (hpredicate : Reads (parsePredicate vocab) predicateText predicate) (hmore : MarkNext more)
    (triples : List Triple) :
    parseStatements vocab (subjectText ++ ' ' :: (c.text ++ (between ++ (" ;\n  ".toList ++
      (predicateText ++ ' ' :: (text ++ more)))))) ≠ .ok triples := by
  obtain ⟨cs, rfl, -⟩ := hbetween
  have htext : ∀ (c : Clause vocab) (tail : List Char),
      c.text ++ (cs.flatMap Clause.continued ++ (" ;\n  ".toList ++ tail)) =
        (c :: cs).flatMap (·.text ++ " ;\n  ".toList) ++ tail := by
    intro c tail
    induction cs generalizing c with
    | nil => simp
    | cons d cs ih =>
      rw [List.flatMap_cons, Clause.continued, List.append_assoc, List.append_assoc, ih d]
      simp
  intro hok
  rw [htext, parseStatements_eq, skipWs_append _ hsubject.starts, if_neg (by simp)] at hok
  obtain ⟨⟨statement, after⟩, hstatement, hok⟩ := bind_eq_ok.mp hok
  obtain ⟨others, hothers, -⟩ := bind_eq_ok.mp hok
  rw [parseTriples, hsubject.reads] at hstatement
  exact h.clauses_ne hcomma hpredicate hmore (c :: cs) [' '] (by simp [isWhitespace]) hstatement
    others hothers

end Cuts

/-- What comes after statements that read back is read by itself. -/
theorem States.parseStatements_ne {text : List Char} {stated : List Triple}
    (h : States vocab text stated)
    (hrest : ∀ triples, parseStatements vocab rest ≠ .ok triples) (triples : List Triple) :
    parseStatements vocab (text ++ rest) ≠ .ok triples := by
  rw [h]
  cases hparse : parseStatements vocab rest with
  | error e => exact nofun
  | ok others => exact absurd hparse (hrest others)

end Turtle

end AtomrOntology
