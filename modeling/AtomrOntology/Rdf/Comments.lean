import AtomrOntology.Rdf.TurtleSteps

/-!
# Where a comment may be put into a Turtle document

A `#` ends no token of its own: it is skipped like a blank before a token, and it is taken
into a name that does not show where it ends. The text of a comment is read as part of the
document, unless it is blank.
-/

namespace AtomrOntology

namespace Turtle

/-- A reader takes a token from the front of a text, and takes the same token when a `#` is
put in behind it: not directly behind it, unless the token shows where it ends. -/
def Takes {α : Type} (p : List Char → Except ParseError (α × List Char)) (cs : List Char)
    (value : α) (closed : Bool) (rest : List Char) : Prop :=
  ∃ token, token ≠ [] ∧ cs = token ++ rest ∧ ∀ gap back tail, rest = gap ++ back →
    gap ≠ [] ∨ closed = true → p (token ++ (gap ++ '#' :: tail)) = .ok (value, gap ++ '#' :: tail)

/-- What does not start a text does not start it either when a `#` is put in. -/
theorem stripPrefix_hash {key front back : List Char} (tail : List Char) (hkey : '#' ∉ key)
    (h : stripPrefix key (front ++ back) = none) :
    stripPrefix key (front ++ '#' :: tail) = none := by
  rw [Option.eq_none_iff_forall_ne_some]
  intro rest hrest
  have htext := stripPrefix_eq_some.mp hrest
  rcases List.append_eq_append_iff.mp htext with ⟨mid, hmid, hhash⟩ | ⟨mid, hmid, -⟩
  · -- the key would reach over the `#`
    cases mid with
    | nil =>
      rw [List.append_nil] at hmid
      rw [hmid, stripPrefix_append] at h
      cases h
    | cons c mid =>
      obtain rfl : '#' = c := (List.cons.inj hhash).1
      exact hkey (by rw [hmid]; exact List.mem_append_right _ List.mem_cons_self)
  · rw [hmid, List.append_assoc, stripPrefix_append] at h
    cases h

/-- A name goes on to the same place when a `#` is put in behind its end. -/
theorem takeWhile_hash {cs gap back : List Char} (tail : List Char) (hgap : gap ≠ [])
    (h : cs.dropWhile (!endsToken ·) = gap ++ back) :
    (cs.takeWhile (!endsToken ·) ++ (gap ++ '#' :: tail)).takeWhile (!endsToken ·) =
        cs.takeWhile (!endsToken ·) ∧
      (cs.takeWhile (!endsToken ·) ++ (gap ++ '#' :: tail)).dropWhile (!endsToken ·) =
        gap ++ '#' :: tail := by
  have hname : ∀ c ∈ cs.takeWhile (!endsToken ·), (!endsToken c) = true := by
    intro c hc
    have hp := List.mem_takeWhile_imp hc
    exact hp
  have hend : ∀ c ∈ (gap ++ '#' :: tail).head?, (!endsToken c) = false := by
    intro c hc
    cases gap with
    | nil => exact absurd rfl hgap
    | cons d gap =>
      obtain rfl := Option.some.inj hc
      have hhead := List.head?_dropWhile_not (!endsToken ·) cs
      rw [h] at hhead
      simpa using hhead
  exact ⟨List.takeWhile_token hname hend, List.dropWhile_token hname hend⟩

/-- A literal up to its closing quote does not depend on what follows. -/
theorem literalBody_split {cs lexical rest : List Char} (h : literalBody cs = .ok (lexical, rest)) :
    ∃ token, cs = token ++ rest ∧ ∀ tail, literalBody (token ++ tail) = .ok (lexical, tail) := by
  induction cs using literalBody.induct generalizing lexical with
  | case1 => cases h
  | case2 => cases h
  | case3 e cs ih =>
    rw [literalBody, if_pos rfl] at h
    obtain ⟨⟨lexical', rest'⟩, hbody, hpure⟩ := bind_eq_ok.mp h
    cases hpure
    obtain ⟨token, rfl, htoken⟩ := ih hbody
    refine ⟨'\\' :: e :: token, rfl, ?_⟩
    intro tail
    rw [List.cons_append, List.cons_append, literalBody, if_pos rfl, htoken]
    rfl
  | case4 cs hne =>
    rw [literalBody.eq_def] at h
    simp only [hne, ↓reduceIte] at h
    cases h
    refine ⟨['"'], rfl, ?_⟩
    intro tail
    rw [List.cons_append, literalBody.eq_def]
    simp only [hne, ↓reduceIte, List.nil_append]
  | case5 c cs hne hquote ih =>
    rw [literalBody.eq_def] at h
    simp only [hne, hquote, ↓reduceIte] at h
    obtain ⟨⟨lexical', rest'⟩, hbody, hpure⟩ := bind_eq_ok.mp h
    cases hpure
    obtain ⟨token, rfl, htoken⟩ := ih hbody
    refine ⟨c :: token, rfl, ?_⟩
    intro tail
    rw [List.cons_append, literalBody.eq_def]
    simp only [hne, hquote, ↓reduceIte, htoken]
    rfl

section

variable {vocab : Vocabulary} {cs rest : List Char}

theorem takes_term {term : Subject} (h : parseIriOrCurieOrBlank vocab cs = .ok (term, rest)) :
    Takes (parseIriOrCurieOrBlank vocab) cs term (closesTerm cs) rest := by
  unfold parseIriOrCurieOrBlank at h
  split at h
  · next body hopen =>
    obtain rfl := stripPrefix_eq_some.mp hopen
    split at h
    · next iri rest' hclose =>
      obtain ⟨hiri, rfl⟩ := splitOnce_some hclose
      cases h
      refine ⟨'<' :: (iri ++ ['>']), List.cons_ne_nil _ _, by simp, ?_⟩
      intro gap back tail _ _
      have htext : '<' :: (iri ++ ['>']) ++ (gap ++ '#' :: tail) =
          '<' :: (iri ++ '>' :: (gap ++ '#' :: tail)) := by
        simp
      rw [htext, parseTerm_angle _ hiri]
    · cases h
  · next hopen =>
    have hclosed : closesTerm cs = false := by
      cases cs with
      | nil => rfl
      | cons c cs =>
        rw [closesTerm, List.head?_cons, beq_eq_false_iff_ne]
        intro hc
        obtain rfl := Option.some.inj hc
        have hsome : stripPrefix ['<'] ('<' :: cs) = some cs := stripPrefix_append ['<'] cs
        rw [hsome] at hopen
        cases hopen
    rw [hclosed]
    split at h
    · next after hblank =>
      obtain rfl := stripPrefix_eq_some.mp hblank
      cases h
      refine ⟨['_', ':'] ++ after.takeWhile (!endsToken ·), by simp, ?_, ?_⟩
      · rw [List.append_assoc, List.takeWhile_append_dropWhile]
      · intro gap back tail hrest hgap
        have hname := takeWhile_hash tail (hgap.resolve_right (by simp)) hrest
        rw [List.append_assoc, parseIriOrCurieOrBlank, stripPrefix_append]
        have hangle : ∀ r, stripPrefix ['<'] (['_', ':'] ++ r) = none := by
          intro r
          simp [stripPrefix]
        rw [hangle]
        simp only [hname.1, hname.2]
    · next hblank =>
      simp only at h
      split at h
      · cases h
      · next pre loc hcolon =>
        split at h
        · next base hbase =>
          cases h
          have hcs : cs = cs.takeWhile (!endsToken ·) ++ cs.dropWhile (!endsToken ·) :=
            List.takeWhile_append_dropWhile.symm
          refine ⟨cs.takeWhile (!endsToken ·), ?_, hcs, ?_⟩
          · intro hnil
            rw [hnil] at hcolon
            cases hcolon
          · intro gap back tail hrest hgap
            have hname := takeWhile_hash tail (hgap.resolve_right (by simp)) hrest
            rw [hrest, ← List.append_assoc] at hcs
            rw [hcs] at hopen hblank
            have hopen' := stripPrefix_hash tail (by decide) hopen
            have hblank' := stripPrefix_hash tail (by decide) hblank
            rw [List.append_assoc] at hopen' hblank'
            rw [parseIriOrCurieOrBlank, hopen', hblank']
            simp only [hname.1, hname.2, hcolon, hbase]
        · cases h

theorem takes_literal {body : List Char} {object : Object}
    (h : parseLiteral vocab body = .ok (object, rest)) :
    Takes (parseObject vocab) ('"' :: body) object (closesObject ('"' :: body)) rest := by
  have hquote : ∀ r, stripPrefix ['"'] ('"' :: r) = some r := stripPrefix_append ['"']
  obtain ⟨⟨lexical, after⟩, hlexical, hafter⟩ := bind_eq_ok.mp h
  obtain ⟨token, rfl, htoken⟩ := literalBody_split hlexical
  simp only at hafter
  unfold closesObject
  rw [hquote]
  simp only [hlexical]
  cases hlang : stripPrefix ['@'] after with
  | some lang =>
    obtain rfl := stripPrefix_eq_some.mp hlang
    rw [hlang] at hafter
    cases hafter
    refine ⟨'"' :: (token ++ '@' :: lang.takeWhile (!endsToken ·)), by simp, ?_, ?_⟩
    · simp
    · intro gap back tail hrest hgap
      have hname := takeWhile_hash tail (hgap.resolve_right (by simp)) hrest
      have hat : ∀ r, stripPrefix ['@'] ('@' :: r) = some r := stripPrefix_append ['@']
      rw [List.cons_append, parseObject, hquote, List.append_assoc, List.cons_append]
      simp only [parseLiteral, htoken, bind, Except.bind, hat, hname.1, hname.2]
      rfl
  | none =>
    rw [hlang] at hafter
    cases hcaret : stripPrefix ['^', '^'] after with
    | some dt =>
      obtain rfl := stripPrefix_eq_some.mp hcaret
      rw [hcaret] at hafter
      obtain ⟨⟨term, rest'⟩, hterm, hpure⟩ := bind_eq_ok.mp hafter
      obtain ⟨dtToken, -, hdt, hdtTake⟩ := takes_term hterm
      have hrest : rest' = rest := by
        cases term <;> cases hpure <;> rfl
      subst hrest
      refine ⟨'"' :: (token ++ ['^', '^'] ++ dtToken), by simp, by simp [hdt], ?_⟩
      intro gap back tail hrest hgap
      have hdatatype := hdtTake gap back tail hrest hgap
      have hcarets : ∀ r, stripPrefix ['^', '^'] (['^', '^'] ++ r) = some r :=
        stripPrefix_append ['^', '^']
      have hat : ∀ r, stripPrefix ['@'] (['^', '^'] ++ r) = none := by
        intro r
        simp [stripPrefix]
      rw [List.cons_append, parseObject, hquote, List.append_assoc, List.append_assoc]
      simp only [parseLiteral, htoken, bind, Except.bind, hat, hcarets, hdatatype]
      cases term <;> cases hpure <;> rfl
    | none =>
      rw [hcaret] at hafter
      cases hafter
      refine ⟨'"' :: token, by simp, rfl, ?_⟩
      intro gap back tail hrest _
      subst hrest
      have hat := stripPrefix_hash tail (by decide) hlang
      have hcarets := stripPrefix_hash tail (by decide) hcaret
      rw [List.cons_append, parseObject, hquote]
      simp only [parseLiteral, htoken, bind, Except.bind, hat, hcarets]
      rfl

theorem takes_object {object : Object} (h : parseObject vocab cs = .ok (object, rest)) :
    Takes (parseObject vocab) cs object (closesObject cs) rest := by
  unfold parseObject at h
  cases hquote : stripPrefix ['"'] cs with
  | some body =>
    obtain rfl := stripPrefix_eq_some.mp hquote
    rw [hquote] at h
    exact takes_literal h
  | none =>
    rw [hquote] at h
    obtain ⟨⟨term, rest'⟩, hterm, hpure⟩ := bind_eq_ok.mp h
    cases hpure
    obtain ⟨token, hne, rfl, htake⟩ := takes_term hterm
    refine ⟨token, hne, rfl, ?_⟩
    intro gap back tail hrest hgap
    have hclosed : closesObject (token ++ rest) = closesTerm (token ++ rest) := by
      rw [closesObject, hquote]
    rw [hclosed] at hgap
    have hnone : stripPrefix ['"'] (token ++ (gap ++ '#' :: tail)) = none := by
      rw [hrest, ← List.append_assoc] at hquote
      rw [← List.append_assoc]
      exact stripPrefix_hash tail (by decide) hquote
    rw [parseObject, hnone, htake gap back tail hrest hgap]
    rfl

/-- `a` in front of a name is no predicate of its own. -/
theorem takes_predicate {predicate : Iri} (h : parsePredicate vocab cs = .ok (predicate, rest)) :
    Takes (parsePredicate vocab) cs predicate (closesTerm cs) rest := by
  have hkeyword : ∀ r, stripPrefix ['a'] ('a' :: r) = some r := stripPrefix_append ['a']
  obtain ⟨ha, hws, rfl⟩ | ⟨hterm, halone⟩ := parsePredicate_cases h
  · obtain rfl := stripPrefix_eq_some.mp ha
    refine ⟨['a'], by simp, rfl, ?_⟩
    intro gap back tail hrest hgap
    have hhead : (gap ++ '#' :: tail).head? = rest.head? := by
      cases gap with
      | nil => simp [closesTerm] at hgap
      | cons c gap => rw [hrest]; rfl
    rw [List.singleton_append, parsePredicate, hkeyword]
    simp only [hhead, hws, ↓reduceIte]
  cases ha : stripPrefix ['a'] cs with
  | none =>
    obtain ⟨token, hne, rfl, htake⟩ := takes_term hterm
    refine ⟨token, hne, rfl, ?_⟩
    intro gap back tail hrest hgap
    have hnone : stripPrefix ['a'] (token ++ (gap ++ '#' :: tail)) = none := by
      rw [hrest, ← List.append_assoc] at ha
      rw [← List.append_assoc]
      exact stripPrefix_hash tail (by decide) ha
    rw [parsePredicate, hnone]
    simp only [htake gap back tail hrest hgap]
    rfl
  | some after =>
    have hws := halone after ha
    obtain rfl := stripPrefix_eq_some.mp ha
    obtain ⟨token, hne, htoken, htake⟩ := takes_term hterm
    refine ⟨token, hne, htoken, ?_⟩
    intro gap back tail hrest hgap
    cases token with
    | nil => exact absurd rfl hne
    | cons c token =>
      obtain ⟨rfl, hinj⟩ := List.cons.inj htoken
      have hafter : after = token ++ rest := hinj
      have hhead : (token ++ (gap ++ '#' :: tail)).head? = (token ++ rest).head? := by
        cases token with
        | cons d token => rfl
        | nil =>
          cases gap with
          | nil => simp [closesTerm] at hgap
          | cons d gap => rw [hrest]; rfl
      have hread := htake gap back tail hrest hgap
      rw [List.cons_append] at hread ⊢
      rw [parsePredicate, hkeyword]
      simp only [hhead]
      rw [← hafter, if_neg hws, hread]
      rfl

end

/-- Every token is read again when a `#` is put in behind it. -/
theorem Moves.takes {st st' : State} {triples : List Triple} {closed : Bool}
    {cs rest : List Char} (h : Moves st cs triples st' closed rest) :
    ∃ token, token ≠ [] ∧ cs = token ++ rest ∧ ∀ gap back tail, rest = gap ++ back →
      gap ≠ [] ∨ closed = true → ∃ closed',
        Moves st (token ++ (gap ++ '#' :: tail)) triples st' closed' (gap ++ '#' :: tail) := by
  have hmark : ∀ {key cs rest : List Char}, stripPrefix key cs = some rest → key ≠ [] →
      (∀ r, stripPrefix key (key ++ r) = some r → Moves st (key ++ r) triples st' true r) →
      ∃ token, token ≠ [] ∧ cs = token ++ rest ∧ ∀ gap back tail, rest = gap ++ back →
        gap ≠ [] ∨ closed = true → ∃ closed',
          Moves st (token ++ (gap ++ '#' :: tail)) triples st' closed' (gap ++ '#' :: tail) := by
    intro key cs rest hkey hne hmove
    refine ⟨key, hne, stripPrefix_eq_some.mp hkey, ?_⟩
    intro gap back tail _ _
    exact ⟨true, hmove _ (stripPrefix_append key _)⟩
  cases h with
  | keyword h => exact hmark h (by simp) fun r hr => .keyword hr
  | bound h => exact hmark h (by simp) fun r hr => .bound hr
  | comma h => exact hmark h (by simp) fun r hr => .comma hr
  | semicolon h => exact hmark h (by simp) fun r hr => .semicolon hr
  | dot h => exact hmark h (by simp) fun r hr => .dot hr
  | @name vocab _ pre _ h =>
    obtain ⟨hcolon, rfl⟩ := splitOnce_some h
    refine ⟨pre ++ [':'], by simp, by simp, ?_⟩
    intro gap back tail _ _
    refine ⟨true, ?_⟩
    rw [List.append_assoc, List.singleton_append]
    exact .name (splitOnce_append _ hcolon)
  | @base vocab pre _ body base _ hopen hclose =>
    obtain rfl := stripPrefix_eq_some.mp hopen
    obtain ⟨hiri, rfl⟩ := splitOnce_some hclose
    refine ⟨['<'] ++ (base ++ ['>']), by simp, by simp, ?_⟩
    intro gap back tail _ _
    refine ⟨true, ?_⟩
    rw [List.append_assoc, List.append_assoc, List.singleton_append]
    exact .base (stripPrefix_append ['<'] _) (splitOnce_append _ hiri)
  | firstSubject hno h =>
    obtain ⟨token, hne, rfl, htake⟩ := takes_term h
    refine ⟨token, hne, rfl, ?_⟩
    intro gap back tail hrest hgap
    rw [hrest, ← List.append_assoc] at hno
    have hno' := stripPrefix_hash tail (by simp) hno
    rw [List.append_assoc] at hno'
    exact ⟨_, .firstSubject hno' (htake gap back tail hrest hgap)⟩
  | subject h =>
    obtain ⟨token, hne, rfl, htake⟩ := takes_term h
    exact ⟨token, hne, rfl, fun gap back tail hrest hgap =>
      ⟨_, .subject (htake gap back tail hrest hgap)⟩⟩
  | predicate h =>
    obtain ⟨token, hne, rfl, htake⟩ := takes_predicate h
    exact ⟨token, hne, rfl, fun gap back tail hrest hgap =>
      ⟨_, .predicate (htake gap back tail hrest hgap)⟩⟩
  | object h =>
    obtain ⟨token, hne, rfl, htake⟩ := takes_object h
    exact ⟨token, hne, rfl, fun gap back tail hrest hgap =>
      ⟨_, .object (htake gap back tail hrest hgap)⟩⟩

/-- Blanks and number signs are skipped. -/
def Skipped (cs : List Char) : Prop := ∀ c ∈ cs, isWhitespace c = true ∨ c = '#'

theorem skipWs_skipped {gap : List Char} (rest : List Char) (h : Skipped gap) :
    skipWs (gap ++ rest) = skipWs rest := by
  refine List.dropWhile_append_of_pos ?_
  intro c hc
  simpa using h c hc

theorem exists_skipped (cs : List Char) : ∃ gap, Skipped gap ∧ cs = gap ++ skipWs cs := by
  refine ⟨cs.takeWhile fun c => isWhitespace c || c == '#', ?_, ?_⟩
  · intro c hc
    simpa using List.mem_takeWhile_imp hc
  · exact List.takeWhile_append_dropWhile.symm

/-- A text from which nothing is left has nothing but blanks and number signs. -/
theorem skipped_of_skipWs {cs : List Char} (h : skipWs cs = []) : Skipped cs := by
  obtain ⟨gap, hgap, hcs⟩ := exists_skipped cs
  rw [h, List.append_nil] at hcs
  rw [hcs]
  exact hgap

/-- Nothing of a token is skipped, whatever follows it. -/
theorem skipWs_token {token cs rest : List Char} (tail : List Char) (hne : token ≠ [])
    (h : skipWs cs = token ++ rest) : skipWs (token ++ tail) = token ++ tail := by
  have hself := skipWs_skipWs cs
  rw [h] at hself
  cases token with
  | nil => exact absurd rfl hne
  | cons c token =>
    refine skipWs_append tail ⟨c, rfl, ?_⟩
    by_contra hc
    have hshort := length_skipWs_le (token ++ rest)
    rw [not_and_or] at hc
    have hfirst : Skipped [c] := by
      intro d hd
      obtain rfl := List.mem_singleton.mp hd
      exact hc.imp (by simp) (by simp)
    have hskip : skipWs (c :: token ++ rest) = skipWs (token ++ rest) :=
      skipWs_skipped (token ++ rest) hfirst
    rw [← hskip, hself, List.cons_append, List.length_cons] at hshort
    omega

/-- A `#` may be put in at a gap between two tokens, unless the token before it would take it
in: the run comes to the same state. -/
theorem At.insert {front back : List Char} {out : List Triple} {st : State} {closed : Bool}
    {gap : List Char} (h : At (front ++ back) out st closed (gap ++ back))
    (hgap : gap ≠ [] ∨ closed = true) (tail : List Char) :
    ∃ closed', At (front ++ '#' :: tail) out st closed' (gap ++ '#' :: tail) := by
  generalize hrest : gap ++ back = rest at h
  induction h generalizing gap with
  | start =>
    obtain rfl := List.append_cancel_right hrest
    exact ⟨true, .start⟩
  | @move out triples st st' closed closed' cs rest h hmove ih =>
    obtain ⟨token, hne, hskip, htake⟩ := hmove.takes
    obtain ⟨closed'', hmove'⟩ := htake gap back tail hrest.symm hgap
    obtain ⟨blanks, hblanks, hcs⟩ := exists_skipped cs
    have hbefore : blanks ++ (token ++ gap) ++ back = cs := by
      rw [hcs, hskip, ← hrest]
      simp
    have hlonger : blanks ++ (token ++ gap) ≠ [] := by simp [hne]
    obtain ⟨_, hat⟩ := ih (Or.inl hlonger) hbefore
    have hnext : skipWs (blanks ++ (token ++ gap) ++ '#' :: tail) =
        token ++ (gap ++ '#' :: tail) := by
      rw [List.append_assoc, skipWs_skipped _ hblanks, List.append_assoc]
      exact skipWs_token _ hne hskip
    exact ⟨closed'', hat.move (hnext ▸ hmove')⟩

/-- The places between two tokens where whitespace is allowed: behind blanks or a token that
shows where it ends, or directly behind a name, which goes on to the next blank or mark. -/
inductive Place where
  | apart
  | touching
deriving DecidableEq, Repr

/-- A document is divided at a place where whitespace is allowed. -/
inductive Gap : Place → List Char → List Char → Prop
  /-- between tokens, behind some blanks or behind a token that shows where it ends -/
  | apart {front back gap : List Char} {out : List Triple} {st : State} {closed : Bool}
      (h : At (front ++ back) out st closed (gap ++ back)) (hgap : Skipped gap)
      (hends : gap ≠ [] ∨ closed = true) : Gap .apart front back
  /-- directly behind a prefixed name, a blank node, a language or the keyword `a` -/
  | behindName {front back : List Char} {out : List Triple} {st : State}
      (h : At (front ++ back) out st false back) : Gap .touching front back
  /-- between the name of a prefix and its colon -/
  | beforeColon {front name blanks blanks' rest cs : List Char} {out : List Triple}
      {vocab : Vocabulary} {closed : Bool}
      (h : At (front ++ (blanks' ++ ':' :: rest)) out (.prefixName vocab) closed cs)
      (hcs : skipWs cs = name ++ blanks ++ (blanks' ++ ':' :: rest)) (hname : name ≠ [])
      (hcolon : ':' ∉ name) (hblanks : ∀ c ∈ blanks ++ blanks', isWhitespace c = true) :
      Gap .touching front (blanks' ++ ':' :: rest)

/-- A comment with a blank text changes nothing between tokens that stay apart. -/
theorem parse_blankComment {front back text : List Char} (h : Gap .apart front back)
    (htext : Skipped text) :
    parse (front ++ '#' :: (text ++ '\n' :: back)) = parse (front ++ back) := by
  cases h with
  | @apart _ _ gap out st closed hat hgap hends =>
    obtain ⟨_, hinserted⟩ := hat.insert hends (text ++ '\n' :: back)
    have hskip : skipWs (gap ++ '#' :: (text ++ '\n' :: back)) = skipWs (gap ++ back) := by
      have hcomment : Skipped ('#' :: (text ++ ['\n'])) := by
        intro c hc
        simp only [List.mem_cons, List.mem_append, List.not_mem_nil, or_false] at hc
        rcases hc with rfl | hc | rfl
        · exact Or.inr rfl
        · exact htext c hc
        · exact Or.inl rfl
      have hback := skipWs_skipped back hcomment
      rw [skipWs_skipped _ hgap, skipWs_skipped _ hgap, ← hback]
      simp
    rw [hinserted.parse, hat.parse, ← resume_skipWs, hskip, resume_skipWs]

section

variable {vocab : Vocabulary}

theorem parseObjects_ne_nil {cs rest : List Char} {objects : List Object}
    (h : parseObjects vocab cs = .ok (objects, rest)) : objects ≠ [] := by
  rw [parseObjects_eq] at h
  obtain ⟨⟨object, rest'⟩, -, h⟩ := bind_eq_ok.mp h
  simp only at h
  split at h
  · obtain ⟨⟨objects', rest''⟩, -, hpure⟩ := bind_eq_ok.mp h
    cases hpure
    exact List.cons_ne_nil _ _
  · cases h
    exact List.cons_ne_nil _ _

/-- A statement adds a triple of its subject. -/
theorem head_predicatesFrom {subject : Subject} {cs : List Char} {triples : List Triple}
    (h : predicatesFrom vocab subject cs = .ok triples) :
    ∃ t ∈ triples.head?, t.subject = subject := by
  obtain ⟨⟨own, rest⟩, hown, h⟩ := bind_eq_ok.mp h
  have hhead : ∃ t ∈ own.head?, t.subject = subject := by
    rw [parsePredicates_eq] at hown
    obtain ⟨⟨predicate, rest'⟩, -, hown⟩ := bind_eq_ok.mp hown
    obtain ⟨⟨objects, rest''⟩, hobjects, hown⟩ := bind_eq_ok.mp hown
    have hne := parseObjects_ne_nil hobjects
    cases objects with
    | nil => exact absurd rfl hne
    | cons object objects =>
      simp only at hown
      split at hown
      · obtain ⟨⟨others, rest⟩, -, hpure⟩ := bind_eq_ok.mp hown
        cases hpure
        exact ⟨_, rfl, rfl⟩
      · split at hown
        · cases hown
          exact ⟨_, rfl, rfl⟩
        · cases hown
  obtain ⟨t, ht, hsubject⟩ := hhead
  refine ⟨t, ?_, hsubject⟩
  cases own with
  | nil => cases ht
  | cons u own =>
    simp only at h
    cases hothers : parseStatements vocab rest with
    | error e =>
      rw [hothers] at h
      cases h
    | ok others =>
      rw [hothers] at h
      cases h
      exact ht

/-- A text without statements has nothing but blanks and number signs. -/
theorem skipped_of_parseStatements {cs : List Char} (h : parseStatements vocab cs = .ok []) :
    Skipped cs := by
  apply skipped_of_skipWs
  by_contra hne
  have hstatements := h
  rw [parseStatements_eq, if_neg hne] at hstatements
  obtain ⟨⟨triples, rest⟩, htriples, -⟩ := bind_eq_ok.mp hstatements
  obtain ⟨⟨subject, rest'⟩, hsubject, -⟩ := bind_eq_ok.mp htriples
  have hskip : parseStatements vocab (skipWs cs) = parseStatements vocab cs :=
    resume_skipWs (.statements vocab) cs
  rw [← hskip, parseStatements_subject (skipWs_skipWs cs) hsubject] at h
  obtain ⟨t, ht, -⟩ := head_predicatesFrom h
  cases ht

end

/-- A statement about a blank node: its subject and the rest. -/
def noteSubject : List Char := ['_', ':', 's']
def noteRest : List Char := [' ', '<', 'p', '>', ' ', '<', 'o', '>', ' ', '.']
def noteTriple : Triple := ⟨.blank "s", ⟨"p"⟩, .iri ⟨"o"⟩⟩

/-- A text that starts with the name of a blank node is read as a statement about it. -/
theorem moves_blank (name rest : List Char) :
    Moves (.directives .empty) (skipWs ('_' :: ':' :: name ++ rest)) []
      (.predicate .empty (.blank (.ofList ((name ++ rest).takeWhile (!endsToken ·))))) false
      ((name ++ rest).dropWhile (!endsToken ·)) := by
  have hskip : skipWs ('_' :: ':' :: name ++ rest) = ['_', ':'] ++ (name ++ rest) := by
    have hstarts : ∃ c ∈ ('_' :: ':' :: name).head?, isWhitespace c = false ∧ c ≠ '#' :=
      ⟨'_', rfl, by decide, by decide⟩
    rw [skipWs_append rest hstarts]
    simp
  have hangle : stripPrefix ['<'] (['_', ':'] ++ (name ++ rest)) = none := by
    simp [stripPrefix]
  have hdirective : stripPrefix "@prefix".toList (['_', ':'] ++ (name ++ rest)) = none := by
    simp [stripPrefix]
  rw [hskip]
  refine .firstSubject hdirective ?_
  rw [parseIriOrCurieOrBlank, hangle, stripPrefix_append]

theorem at_noteSubject : At (noteSubject ++ noteRest) [] (.predicate .empty (.blank "s")) false
    noteRest :=
  At.start.move (moves_blank ['s'] noteRest)

theorem at_note : At (noteSubject ++ noteRest) [noteTriple] (.statements .empty) true [] := by
  have hpredicate : Moves (.predicate .empty (.blank "s")) (skipWs noteRest) []
      (.object .empty (.blank "s") ⟨"p"⟩) true [' ', '<', 'o', '>', ' ', '.'] := by
    have hreads : Reads (parseIriOrCurieOrBlank .empty) ['<', 'p', '>'] (.iri ⟨"p"⟩) :=
      reads_angle (by decide : '>' ∉ ['p'])
    exact .predicate ((hreads.predicate (by decide)).reads ['<', 'o', '>', ' ', '.'])
  have hobject : Moves (.object .empty (.blank "s") ⟨"p"⟩)
      (skipWs [' ', '<', 'o', '>', ' ', '.']) [noteTriple]
      (.listEnd .empty (.blank "s") ⟨"p"⟩) true [' ', '.'] := by
    have hreads : Reads (parseIriOrCurieOrBlank .empty) ['<', 'o', '>'] (.iri ⟨"o"⟩) :=
      reads_angle (by decide : '>' ∉ ['o'])
    exact .object ((hreads.object (by decide)).reads ['.'])
  exact ((at_noteSubject.move hpredicate).move hobject).move (.dot rfl)

theorem parse_note : parse (noteSubject ++ noteRest) = .ok [noteTriple] := by
  rw [at_note.parse]
  simp only [State.resume]
  rw [parseStatements_eq]
  rfl

/-- Directly behind a name a comment is taken into the name. -/
theorem parse_note_touching (tail : List Char) :
    parse (noteSubject ++ '#' :: tail) ≠ .ok [noteTriple] := by
  intro h
  have hat := At.start.move (moves_blank ['s', '#'] tail)
  have hparse : parse (noteSubject ++ '#' :: tail) = _ := hat.parse
  rw [hparse, List.append_nil, map_nil_append] at h
  obtain ⟨t, ht, hsubject⟩ := head_predicatesFrom h
  obtain rfl := Option.some.inj ht
  have hlabel := Subject.blank.inj hsubject
  rw [← String.toList_inj, String.toList_ofList] at hlabel
  have hlength := congrArg List.length hlabel
  have hends : endsToken 's' = false ∧ endsToken '#' = false := by decide
  simp [hends] at hlength

/-- Behind a statement the text of a comment is read as statements. -/
theorem skipped_of_parse_note {text : List Char}
    (h : parse (noteSubject ++ noteRest ++ '#' :: (text ++ ['\n'])) = .ok [noteTriple]) :
    Skipped text := by
  have hat : At (noteSubject ++ noteRest ++ []) [noteTriple] (.statements .empty) true
      ([] ++ []) := by
    rw [List.append_nil]
    exact at_note
  obtain ⟨_, hinserted⟩ := hat.insert (Or.inr rfl) (text ++ ['\n'])
  rw [hinserted.parse, List.nil_append] at h
  simp only [State.resume] at h
  cases hrest : parseStatements .empty ('#' :: (text ++ ['\n'])) with
  | error e =>
    rw [hrest] at h
    cases h
  | ok triples =>
    rw [hrest] at h
    have hnil : triples = [] := (List.cons.inj (Except.ok.inj h)).2
    rw [hnil] at hrest
    have hskipped := skipped_of_parseStatements hrest
    intro c hc
    exact hskipped c (List.mem_cons_of_mem _ (List.mem_append_left _ hc))

/-- A comment leaves the triples of every document unchanged, at every place of one kind,
exactly when its text is blank and the place is not directly behind a name. -/
theorem comment_unread_iff (text : List Char) (place : Place) :
    (∀ front back triples, Gap place front back → parse (front ++ back) = .ok triples →
      parse (front ++ '#' :: (text ++ '\n' :: back)) = .ok triples) ↔
      place = .apart ∧ ∀ c ∈ text, isWhitespace c = true ∨ c = '#' := by
  constructor
  · intro h
    cases place with
    | apart =>
      have hat : At (noteSubject ++ noteRest ++ []) [noteTriple] (.statements .empty) true
          ([] ++ []) := by
        rw [List.append_nil]
        exact at_note
      have hgap : Gap .apart (noteSubject ++ noteRest) [] :=
        .apart hat (fun c hc => absurd hc List.not_mem_nil) (Or.inr rfl)
      have hparse : parse (noteSubject ++ noteRest ++ []) = .ok [noteTriple] := by
        rw [List.append_nil]
        exact parse_note
      exact ⟨rfl, skipped_of_parse_note (h _ _ _ hgap hparse)⟩
    | touching =>
      exact absurd (h _ _ _ (.behindName at_noteSubject) parse_note) (parse_note_touching _)
  · rintro ⟨rfl, htext⟩ front back triples hgap hparse
    rw [parse_blankComment hgap htext, hparse]

/-- A note at the start of a document is read as its first statement. -/
theorem comment_is_read : ¬∀ (text : List Char) (place : Place) (front back : List Char)
    (triples : List Triple), '\n' ∉ text → Gap place front back →
      parse (front ++ back) = .ok triples →
        parse (front ++ '#' :: (text ++ '\n' :: back)) = .ok triples := by
  intro h
  have hgap : Gap .apart [] (noteSubject ++ noteRest) :=
    @Gap.apart [] (noteSubject ++ noteRest) [] _ _ _ At.start
      (fun c hc => absurd hc List.not_mem_nil) (Or.inr rfl)
  have hnote := h [' ', 'n', 'o', 't', 'e'] .apart [] _ _ (by decide) hgap parse_note
  have hskip : skipWs ('#' :: ([' ', 'n', 'o', 't', 'e'] ++ '\n' :: (noteSubject ++ noteRest))) =
      ['n', 'o', 't', 'e'] ++ '\n' :: (noteSubject ++ noteRest) := rfl
  have hdirective : stripPrefix "@prefix".toList
      (['n', 'o', 't', 'e'] ++ '\n' :: (noteSubject ++ noteRest)) = none := by
    simp [stripPrefix]
  have hterm : parseIriOrCurieOrBlank .empty
      (['n', 'o', 't', 'e'] ++ '\n' :: (noteSubject ++ noteRest)) =
        .error (.unrecognizedToken "note") := rfl
  rw [List.nil_append, parse_eq_resume, ← resume_skipWs, hskip] at hnote
  simp only [State.resume] at hnote
  have hne : ['n', 'o', 't', 'e'] ++ '\n' :: (noteSubject ++ noteRest) ≠ [] :=
    List.cons_ne_nil _ _
  rw [documentFrom_statements (by rfl) hdirective, parseStatements_eq, ← hskip, skipWs_skipWs,
    hskip, if_neg hne, parseTriples, hterm] at hnote
  cases hnote

end Turtle

end AtomrOntology
