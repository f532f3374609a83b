import AtomrOntology.Rdf.ReadsBack
import AtomrOntology.Rdf.TurtleCursor

/-!
# Turtle never slices out of bounds

What the parser reads at an offset is what it reads from the text there: every offset that a
search or a loop has computed ends a character. Every round of a loop takes a character, so the
rounds suffice.
-/

namespace AtomrOntology

namespace Turtle.Parser

/-- The characters that `skip_ws` skips. -/
def skipped (c : Char) : Bool := isWhitespace c || c == '#'

/-- What is consumed ends where the first character that is not skipped begins. -/
theorem scan_eq (front cs : List Char) (consumed : Nat) :
    scan (front ++ cs) (byteLength front) consumed cs =
      some (if cs = [] then consumed
        else byteLength front + byteLength (cs.takeWhile skipped)) := by
  induction cs generalizing front consumed with
  | nil => rfl
  | cons c cs ih =>
    have hfront : byteLength (front ++ [c]) = byteLength front + c.utf8Size := by simp
    have hnext := ih (front ++ [c])
    rw [hfront, List.append_assoc, List.singleton_append] at hnext
    rw [scan, if_neg (List.cons_ne_nil c cs)]
    by_cases hws : isWhitespace c = true
    · rw [if_pos hws, hnext, List.takeWhile_cons_of_pos (by simp [skipped, hws]), byteLength_cons]
      cases cs with
      | nil => rfl
      | cons d cs => rw [if_neg (List.cons_ne_nil d cs), Nat.add_assoc]
    · rw [if_neg hws]
      by_cases hhash : c = '#'
      · rw [if_pos hhash, sliceFrom_append, Option.bind_eq_bind, Option.bind_some, hnext,
          List.takeWhile_cons_of_pos (by simp [skipped, hhash]), byteLength_cons]
        cases cs with
        | nil =>
          -- the last character is a `#`, no newline follows
          rw [hhash]
          simp [findChar]
        | cons d cs => rw [if_neg (List.cons_ne_nil d cs), Nat.add_assoc]
      · rw [if_neg hhash, List.takeWhile_cons_of_neg (by simp [skipped, hws, hhash])]
        rfl

variable {vocab : Vocabulary} {src cs : List Char} {pos : Nat}

/-- Skipping blanks ends where they end, in one round. -/
theorem skipWs_eq (h : sliceFrom pos src = some cs) :
    ∃ pos', skipWs src pos = some pos' ∧ sliceFrom pos' src = some (Turtle.skipWs cs) := by
  have hscan := scan_eq [] cs 0
  rw [byteLength_nil, List.nil_append, Nat.zero_add] at hscan
  have hconsumed : scan cs 0 0 cs = some (byteLength (cs.takeWhile skipped)) := by
    rw [hscan]
    cases cs <;> rfl
  have hrest := sliceFrom_dropWhile skipped h
  refine ⟨_, ?_, hrest⟩
  rw [skipWs, rounds, skipLoop, h, Option.bind_eq_bind, Option.bind_some, hconsumed,
    Option.bind_eq_bind, Option.bind_some]
  dsimp only
  rw [hrest, Option.bind_some]
  cases hdrop : cs.dropWhile skipped with
  | nil => rfl
  | cons first more =>
    have hfirst : skipped first = false := by
      have hhead := List.head?_dropWhile_not skipped cs
      rw [hdrop] at hhead
      simpa using hhead
    simp only [skipped, Bool.or_eq_false_iff, beq_eq_false_iff_ne] at hfirst
    simp [hfirst.1, hfirst.2]

/-- The parser at an offset does what it does on the text from there on. -/
abbrev ReadsFrom {α : Type} (src : List Char) :
    Checked ParseError (α × Nat) → Except ParseError (α × List Char) → Prop :=
  Agrees (fun _ => False) (AtOffset src)

/-- A term at an offset is the term of the text from there on. -/
theorem parseTerm_reads (h : sliceFrom pos src = some cs) :
    ReadsFrom src (parseIriOrCurieOrBlank vocab src pos)
      (Turtle.parseIriOrCurieOrBlank vocab cs) := by
  rw [parseIriOrCurieOrBlank, Turtle.parseIriOrCurieOrBlank, Checked.lift_bind h]
  cases hopen : stripPrefix ['<'] cs with
  | some body =>
    obtain rfl := stripPrefix_eq_some.mp hopen
    dsimp only
    rw [List.singleton_append]
    cases hclose : splitOnce '>' body with
    | none =>
      rw [not_bracketed '<' (by decide) hclose]
      exact .error not_false
    | some parts =>
      obtain ⟨iri, rest⟩ := parts
      obtain ⟨hfind, hiri, hrest⟩ := bracketed '<' (by decide) rfl rfl hclose
      rw [hfind]
      dsimp only
      rw [Checked.lift_bind hiri]
      exact .ok ⟨rfl, sliceFrom_trans h hrest⟩
  | none =>
    dsimp only
    cases hblank : stripPrefix ['_', ':'] cs with
    | some after =>
      obtain rfl := stripPrefix_eq_some.mp hblank
      dsimp only
      rw [getD_findChar, Checked.lift_bind (sliceTo_takeWhile _ after), ← Nat.add_assoc]
      exact .ok ⟨rfl, sliceFrom_dropWhile _ (sliceFrom_tail (sliceFrom_tail h rfl) rfl)⟩
    | none =>
      dsimp only
      rw [getD_findChar, Checked.lift_bind (sliceTo_takeWhile _ cs), findChar_eq_splitOnce]
      cases hcolon : splitOnce ':' (cs.takeWhile (!endsToken ·)) with
      | none => exact .error not_false
      | some parts =>
        have hloc := sliceFrom_of_splitOnce (sliceFrom_zero _) hcolon rfl
        rw [Nat.zero_add] at hloc
        rw [Option.map_some]
        dsimp only
        rw [Checked.lift_bind (sliceTo_of_splitOnce hcolon), Checked.lift_bind hloc]
        cases vocab.namespaces[String.ofList parts.1]? with
        | none => exact .error not_false
        | some base => exact .ok ⟨rfl, sliceFrom_dropWhile _ h⟩

section

variable {bytes : List UInt8} {i : Nat} {lexical : List Char}

/-- The loop ends with the bytes. -/
theorem literalLoop_end (h : bytes[i]? = none) :
    literalLoop bytes i lexical = throw .unterminatedLiteral := by
  rw [literalLoop, dif_neg (Nat.not_lt.mpr (List.getElem?_eq_none_iff.mp h))]

/-- A backslash takes the next byte along. -/
theorem literalLoop_escape (h : bytes[i]? = some '\\'.toUInt8) :
    literalLoop bytes i lexical = match bytes[i + 1]? with
      | some b => literalLoop bytes (i + 2) (lexical ++ [escapedByte b])
      | none => throw .danglingEscape := by
  obtain ⟨hi, hb⟩ := List.getElem?_eq_some_iff.mp h
  rw [literalLoop, dif_pos hi, if_pos hb]
  by_cases hnext : i + 1 < bytes.length
  · rw [dif_pos hnext, List.getElem?_eq_getElem hnext]
  · rw [dif_neg hnext, List.getElem?_eq_none (Nat.not_lt.mp hnext)]

/-- A quote closes the literal. -/
theorem literalLoop_quote (h : bytes[i]? = some '"'.toUInt8) :
    literalLoop bytes i lexical = pure (lexical, i + 1) := by
  obtain ⟨hi, hb⟩ := List.getElem?_eq_some_iff.mp h
  rw [literalLoop, dif_pos hi, if_neg (by rw [hb]; decide), if_pos hb]

/-- Other bytes are characters. -/
theorem literalLoop_plain {b : UInt8} (h : bytes[i]? = some b)
    (hplain : ∀ d ∈ ['\\', '"'], b ≠ d.toUInt8) :
    literalLoop bytes i lexical = literalLoop bytes (i + 1) (lexical ++ [byteAsChar b]) := by
  obtain ⟨hi, rfl⟩ := List.getElem?_eq_some_iff.mp h
  rw [literalLoop, dif_pos hi, if_neg (hplain '\\' (by simp)), if_neg (hplain '"' (by simp))]

end

/-- The first byte of an escaped character stands for it, the others for themselves. -/
theorem escaped_eq (c : Char) : ∃ b more, utf8 (.singleton c) = b :: more ∧
    escaped c = escapedByte b :: more.map byteAsChar ∧
      ∀ b' ∈ more, ∀ d ∈ ['\\', '"'], b' ≠ d.toUInt8 := by
  by_cases hc : c ∈ ['n', 'r', 't']
  · simp only [List.mem_cons, List.not_mem_nil, or_false] at hc
    rcases hc with rfl | rfl | rfl
    all_goals exact ⟨_, [], utf8_singleton_of_ascii (by decide), rfl, by simp⟩
  · simp only [List.mem_cons, List.not_mem_nil, or_false, not_or] at hc
    have hself : escaped c = bytesAsChars c := by
      unfold escaped
      split
      · exact absurd rfl hc.1
      · exact absurd rfl hc.2.1
      · exact absurd rfl hc.2.2
      · rfl
    obtain ⟨b, more, hutf8⟩ := List.exists_cons_of_ne_nil (utf8_singleton_ne_nil c)
    have htold : ∀ d : Char, d.toNat < 128 → d.toUInt8 ∈ b :: more → c = d := by
      intro d hd hmem
      exact eq_of_mem_utf8_singleton hd (hutf8 ▸ hmem)
    refine ⟨b, more, hutf8, ?_, ?_⟩
    · have hbyte : escapedByte b = byteAsChar b := by
        rw [escapedByte, if_neg, if_neg, if_neg]
        · rintro rfl
          exact hc.2.2 (htold 't' (by decide) List.mem_cons_self)
        · rintro rfl
          exact hc.2.1 (htold 'r' (by decide) List.mem_cons_self)
        · rintro rfl
          exact hc.1 (htold 'n' (by decide) List.mem_cons_self)
      rw [hself, bytesAsChars, hutf8, hbyte]
      rfl
    · -- a delimiter has no further bytes
      rintro b' hb' d hd rfl
      have hascii : d.toNat < 128 := by
        simp only [List.mem_cons, List.not_mem_nil, or_false] at hd
        rcases hd with rfl | rfl <;> decide
      obtain rfl := htold d hascii (List.mem_cons_of_mem b hb')
      rw [utf8_singleton_of_ascii hascii] at hutf8
      rw [← (List.cons.inj hutf8).2] at hb'
      exact absurd hb' List.not_mem_nil

/-- The loop reads what is left of a literal. -/
theorem literalLoop_agrees {input lexical : List Char} {i : Nat}
    (h : sliceFrom i input = some cs) :
    Agrees (fun _ => False) (fun a b => a.1 = lexical ++ b.1 ∧ sliceFrom a.2 input = some b.2)
      (literalLoop (utf8 (.ofList input)) i lexical) (Turtle.literalBody cs) := by
  induction cs using Turtle.literalBody.induct generalizing i lexical with
  | case1 =>
    rw [literalLoop_end (getElem?_of_sliceFrom h)]
    exact .error not_false
  | case2 =>
    have hend := getElem?_of_sliceFrom (sliceFrom_tail h rfl)
    rw [literalLoop_escape (getElem?_ascii h (by decide)), hend]
    exact .error not_false
  | case3 e rest ih =>
    obtain ⟨b, more, hutf8, hescaped, hmore⟩ := escaped_eq e
    have hnext := sliceFrom_tail h rfl
    have hbyte : (utf8 (.ofList input))[i + 1]? = some b := by
      rw [getElem?_of_sliceFrom hnext, utf8_ofList_cons, hutf8]
      rfl
    have hrun : more <+: (utf8 (.ofList input)).drop (i + 2) := by
      have htail := congrArg List.tail (drop_utf8_of_sliceFrom hnext)
      rw [List.tail_drop, utf8_ofList_cons, hutf8] at htail
      exact htail ▸ List.prefix_append more _
    have hrest : sliceFrom (i + 2 + more.length) input = some rest := by
      have he : e.utf8Size = more.length + 1 := by
        rw [← String.length_utf8EncodeChar, ← utf8_singleton, hutf8, List.length_cons]
      have hpast := sliceFrom_next hnext
      have hlen : i + 1 + byteLength [e] = i + 2 + more.length := by
        rw [byteLength_cons, he, byteLength_nil]
        omega
      rwa [hlen] at hpast
    rw [literalLoop_escape (getElem?_ascii h (by decide)), hbyte, Turtle.literalBody, if_pos rfl]
    dsimp only
    rw [loop_run (literalLoop _) (fun i lexical b hb hplain => literalLoop_plain hb hplain) _ hrun
      hmore, List.append_assoc, List.singleton_append, ← hescaped]
    refine (ih hrest).finish ?_
    rintro a b ⟨hlexical, hstop⟩
    exact ⟨by rw [hlexical, List.append_assoc], hstop⟩
  | case4 rest hne =>
    rw [literalLoop_quote (getElem?_ascii h (by decide))]
    have hbody : Turtle.literalBody ('"' :: rest) = .ok ([], rest) := by
      rw [Turtle.literalBody.eq_def]
      rfl
    rw [hbody]
    exact .ok ⟨(List.append_nil _).symm, sliceFrom_tail h rfl⟩
  | case5 c rest hne hquote ih =>
    have hbody : Turtle.literalBody (c :: rest) =
        Turtle.literalBody rest >>= fun body => .ok (bytesAsChars c ++ body.1, body.2) := by
      rw [Turtle.literalBody.eq_def]
      dsimp only
      rw [if_neg hne, if_neg hquote]
      cases Turtle.literalBody rest <;> rfl
    have hchar := loop_char ['\\', '"'] h (literalLoop (utf8 (.ofList input)))
      (fun i lexical b hb hplain => literalLoop_plain hb hplain) lexical (by simp)
      (by simp [hne, hquote])
    rw [hbody, hchar]
    refine (ih (sliceFrom_next h)).finish ?_
    rintro a b ⟨hlexical, hstop⟩
    exact ⟨by rw [hlexical, List.append_assoc]; rfl, hstop⟩

/-- A literal at an offset. -/
theorem parseLiteral_reads (h : sliceFrom pos src = some ('"' :: cs)) :
    ReadsFrom src (parseLiteral vocab src pos) (Turtle.parseLiteral vocab cs) := by
  rw [parseLiteral, Checked.lift_bind h, Turtle.parseLiteral]
  have hstart : sliceFrom 1 ('"' :: cs) = some cs := sliceFrom_append ['"'] cs
  refine (literalLoop_agrees hstart).bind ?_
  rintro ⟨lexical, i⟩ ⟨-, rest⟩ - ⟨rfl, hi⟩
  have hrest := sliceFrom_trans h hi
  dsimp only at hi hrest ⊢
  rw [Checked.lift_bind hrest]
  cases hat : stripPrefix ['@'] rest with
  | some lang =>
    have hlang : sliceFrom (pos + i + 1) src = some lang := sliceFrom_of_stripPrefix hrest hat
    dsimp only
    rw [Checked.lift_bind hlang, getD_findChar, Checked.lift_bind (sliceTo_takeWhile _ lang)]
    exact .ok ⟨rfl, sliceFrom_dropWhile _ hlang⟩
  | none =>
    dsimp only
    cases hcarets : stripPrefix ['^', '^'] rest with
    | some datatype =>
      refine (parseTerm_reads (sliceFrom_of_stripPrefix hrest hcarets)).bind ?_
      rintro ⟨term, pos'⟩ ⟨-, rest'⟩ - ⟨rfl, hpos'⟩
      cases term with
      | iri datatype => exact .ok ⟨rfl, hpos'⟩
      | blank label => exact .ok ⟨rfl, hpos'⟩
    | none => exact .ok ⟨rfl, hrest⟩

/-- A predicate at an offset. -/
theorem parsePredicate_reads (h : sliceFrom pos src = some cs) :
    ReadsFrom src (parsePredicate vocab src pos) (Turtle.parsePredicate vocab cs) := by
  rw [parsePredicate, Turtle.parsePredicate, Checked.lift_bind h]
  cases ha : stripPrefix ['a'] cs
  case' some after =>
    have hafter : sliceFrom 1 cs = some after := by
      rw [stripPrefix_eq_some.mp ha]
      exact sliceFrom_append ['a'] after
    dsimp only
    rw [Checked.lift_bind hafter]
    by_cases hws : after.head?.any isWhitespace = true
    · rw [if_pos hws, if_pos hws]
      exact .ok ⟨rfl, sliceFrom_of_stripPrefix h ha⟩
    rw [if_neg hws, if_neg hws]
  -- no `a` that stands alone
  all_goals
    refine (parseTerm_reads h).bind ?_
    rintro ⟨term, pos'⟩ ⟨-, rest⟩ - ⟨rfl, hpos'⟩
    cases term with
    | iri iri => exact .ok ⟨rfl, hpos'⟩
    | blank label => exact .error not_false

/-- An object at an offset. -/
theorem parseObject_reads (h : sliceFrom pos src = some cs) :
    ReadsFrom src (parseObject vocab src pos) (Turtle.parseObject vocab cs) := by
  rw [parseObject, Checked.lift_bind h, Turtle.parseObject]
  cases hquote : stripPrefix ['"'] cs with
  | some body =>
    obtain rfl := stripPrefix_eq_some.mp hquote
    exact parseLiteral_reads h
  | none =>
    refine (parseTerm_reads h).bind ?_
    rintro ⟨term, pos'⟩ ⟨-, rest⟩ - ⟨rfl, hpos'⟩
    exact .ok ⟨rfl, hpos'⟩

/-- The triples so far and those of what is read, and the offset at which the rest begins. -/
def AddsTriples {α : Type} (src : List Char) (out : List Triple) (triples : α → List Triple)
    (a : List Triple × Nat) (b : α × List Char) : Prop :=
  a.1 = out ++ triples b.1 ∧ sliceFrom a.2 src = some b.2

/-- The objects of a predicate, if the rounds suffice. -/
theorem parseObjects_reads {subject : Subject} {predicate : Iri} {more : Nat} {out : List Triple}
    (h : sliceFrom pos src = some cs) (hmore : cs.length < more) :
    Agrees (fun _ => False) (AddsTriples src out (List.map (⟨subject, predicate, ·⟩)))
      (parseObjects vocab src subject predicate more pos out) (Turtle.parseObjects vocab cs) := by
  induction more generalizing pos cs out with
  | zero => omega
  | succ more ih =>
    obtain ⟨start, hstart, hcs⟩ := skipWs_eq h
    rw [parseObjects, Checked.lift_bind hstart, Turtle.parseObjects_eq]
    refine (parseObject_reads hcs).bind ?_
    rintro ⟨object, pos'⟩ ⟨-, rest⟩ hread ⟨rfl, hpos'⟩
    obtain ⟨after, hafter, hrest⟩ := skipWs_eq hpos'
    dsimp only at hpos' hrest ⊢
    rw [Checked.lift_bind hafter, Checked.lift_bind hrest]
    cases hcomma : stripPrefix [','] (Turtle.skipWs rest) with
    | some others =>
      have hothers : sliceFrom (after + 1) src = some others :=
        sliceFrom_of_stripPrefix hrest hcomma
      -- every object takes a character, so the rounds are not used up
      have hlt : others.length < more := by
        have hobject := length_of_parseObject hread
        have hlen := length_of_stripPrefix hcomma
        have hskip := length_skipWs_le rest
        have hstart := length_skipWs_le cs
        simp only [List.length_cons] at hobject hlen
        omega
      refine (ih hothers hlt).finish ?_
      rintro ⟨triples, stop⟩ ⟨objects, rest'⟩ ⟨rfl, hstop⟩
      exact ⟨List.append_assoc _ _ _, hstop⟩
    | none => exact .ok ⟨rfl, hrest⟩

/-- After the objects no blanks are left. -/
theorem skipWs_of_parseObjects {r : List Object × List Char}
    (h : Turtle.parseObjects vocab cs = .ok r) : Turtle.skipWs r.2 = r.2 := by
  induction cs using Turtle.parseObjects.induct vocab generalizing r with
  | case1 cs e he =>
    rw [parseObjects_eq, he] at h
    cases h
  | case2 cs object rest ho more hm ih =>
    rw [parseObjects_eq, ho] at h
    simp only [bind, Except.bind, hm] at h
    split at h
    · cases h
    · next r' hr =>
      cases h
      exact ih (r := r') hr
  | case3 cs object rest ho hm =>
    rw [parseObjects_eq, ho] at h
    simp only [bind, Except.bind, hm] at h
    cases h
    exact Turtle.skipWs_skipWs rest

/-- The snippet of a message is in bounds. -/
theorem peekSnippet_eq (cs : List Char) : peekSnippet cs = some (cs.take 40) := by
  have hsplit := sliceTo_append (cs.take 40) (cs.drop 40)
  rwa [List.take_append_drop] at hsplit

/-- What is left of a text has fewer characters than loops have rounds. -/
theorem length_lt_rounds (h : sliceFrom pos src = some cs) : cs.length < rounds src := by
  obtain ⟨front, rfl, -⟩ := sliceFrom_eq_some_iff.mp h
  have hlen := length_le_byteLength cs
  rw [rounds, byteLength_append]
  omega

/-- The predicates of a subject, if the rounds suffice. -/
theorem parsePredicates_reads {subject : Subject} {more : Nat} {out : List Triple}
    (h : sliceFrom pos src = some cs) (hmore : cs.length < more) :
    Agrees (fun _ => False) (AddsTriples src out id)
      (parsePredicates vocab src subject more pos out)
      (Turtle.parsePredicates vocab subject cs) := by
  induction more generalizing pos cs out with
  | zero => omega
  | succ more ih =>
    obtain ⟨start, hstart, hcs⟩ := skipWs_eq h
    rw [parsePredicates, Checked.lift_bind hstart, Turtle.parsePredicates_eq]
    refine (parsePredicate_reads hcs).bind ?_
    rintro ⟨predicate, pos'⟩ ⟨-, rest⟩ hpredicate ⟨rfl, hpos'⟩
    refine (parseObjects_reads hpos' (length_lt_rounds hpos')).bind ?_
    rintro ⟨-, pos''⟩ ⟨objects, rest'⟩ hobjects ⟨rfl, hpos''⟩
    obtain ⟨after, hafter, hrest⟩ := skipWs_eq hpos''
    rw [skipWs_of_parseObjects hobjects] at hrest
    dsimp only at hpos'' hrest ⊢
    rw [Checked.lift_bind hafter, Checked.lift_bind hrest]
    cases hsemicolon : stripPrefix [';'] rest' with
    | some others =>
      have hothers : sliceFrom (after + 1) src = some others :=
        sliceFrom_of_stripPrefix hrest hsemicolon
      have hlt : others.length < more := by
        have hpredicate := length_of_parsePredicate hpredicate
        have hobjects := length_of_parseObjects hobjects
        have hlen := length_of_stripPrefix hsemicolon
        have hstart := length_skipWs_le cs
        simp only [List.length_cons] at hpredicate hobjects hlen
        omega
      refine (ih hothers hlt).finish ?_
      rintro ⟨triples, stop⟩ ⟨others', rest''⟩ ⟨rfl, hstop⟩
      exact ⟨List.append_assoc _ _ _, hstop⟩
    | none =>
      cases hdot : stripPrefix ['.'] rest' with
      | some rest'' => exact .ok ⟨rfl, sliceFrom_of_stripPrefix hrest hdot⟩
      | none =>
        dsimp only
        rw [Checked.lift_bind (peekSnippet_eq rest')]
        exact .error not_false

/-- A statement at an offset. -/
theorem parseTriples_reads {out : List Triple} (h : sliceFrom pos src = some cs) :
    Agrees (fun _ => False) (AddsTriples src out id) (parseTriples vocab src pos out)
      (Turtle.parseTriples vocab cs) := by
  refine (parseTerm_reads h).bind ?_
  rintro ⟨subject, pos'⟩ ⟨-, rest⟩ - ⟨rfl, hpos'⟩
  exact parsePredicates_reads hpos' (length_lt_rounds hpos')

/-- The source is read to its end exactly if nothing is left of it. -/
theorem byteLength_le_iff (h : sliceFrom pos src = some cs) : byteLength src ≤ pos ↔ cs = [] := by
  obtain ⟨front, rfl, rfl⟩ := sliceFrom_eq_some_iff.mp h
  have hlen := length_le_byteLength cs
  rw [byteLength_append]
  constructor
  · intro hle
    exact List.length_eq_zero_iff.mp (by omega)
  · rintro rfl
    simp

/-- The statements up to the end, if the rounds suffice. -/
theorem parseStatements_agrees {more : Nat} (out : List Triple)
    (h : sliceFrom pos src = some cs) (hmore : cs.length < more) :
    Agrees (fun _ => False) (fun a b => a = out ++ b) (parseStatements vocab src more pos out)
      (Turtle.parseStatements vocab cs) := by
  induction more generalizing pos cs out with
  | zero => omega
  | succ more ih =>
    obtain ⟨start, hstart, hcs⟩ := skipWs_eq h
    rw [parseStatements, Turtle.parseStatements_eq]
    by_cases hnil : cs = []
    · rw [if_pos ((byteLength_le_iff h).mpr hnil), if_pos (by rw [hnil]; rfl)]
      exact .ok (List.append_nil out).symm
    · rw [if_neg (mt (byteLength_le_iff h).mp hnil), Checked.lift_bind hstart]
      by_cases hend : Turtle.skipWs cs = []
      · rw [if_pos ((byteLength_le_iff hcs).mpr hend), if_pos hend]
        exact .ok (List.append_nil out).symm
      · rw [if_neg (mt (byteLength_le_iff hcs).mp hend), if_neg hend]
        refine (parseTriples_reads hcs).bind ?_
        rintro ⟨-, pos'⟩ ⟨triples, rest⟩ htriples ⟨rfl, hpos'⟩
        have hlt : rest.length < more := by
          have htriples := length_of_parseTriples htriples
          have hstart := length_skipWs_le cs
          simp only at htriples
          omega
        refine (ih _ hpos' hlt).finish ?_
        rintro - others rfl
        exact List.append_assoc _ _ _

/-- A prefix and its base at an offset. -/
theorem parsePrefix_reads (h : sliceFrom pos src = some cs) :
    ReadsFrom src (parsePrefix src pos) (Turtle.parsePrefix cs) := by
  obtain ⟨name, hname, hnamed⟩ := skipWs_eq h
  rw [parsePrefix, Checked.lift_bind hname, Checked.lift_bind hnamed, findChar_eq_splitOnce,
    Turtle.parsePrefix]
  cases hcolon : splitOnce ':' (Turtle.skipWs cs) with
  | none => exact .error not_false
  | some parts =>
    obtain ⟨iri, hiri, hrest⟩ := skipWs_eq (sliceFrom_of_splitOnce hnamed hcolon rfl)
    rw [Option.map_some]
    dsimp only
    rw [Checked.lift_bind (sliceTo_of_splitOnce hcolon), Checked.lift_bind hiri,
      Checked.lift_bind hrest]
    cases hopen : stripPrefix ['<'] (Turtle.skipWs parts.2) with
    | none => exact .error not_false
    | some body =>
      have hbody : sliceFrom (iri + 1) src = some body := sliceFrom_of_stripPrefix hrest hopen
      dsimp only
      rw [Checked.lift_bind hbody, findChar_eq_splitOnce]
      cases hclose : splitOnce '>' body with
      | none => exact .error not_false
      | some parts' =>
        obtain ⟨dot, hdot, hrest⟩ := skipWs_eq (sliceFrom_of_splitOnce hbody hclose rfl)
        rw [Option.map_some]
        dsimp only
        rw [Checked.lift_bind (sliceTo_of_splitOnce hclose), Checked.lift_bind hdot,
          Checked.lift_bind hrest]
        cases hend : stripPrefix ['.'] (Turtle.skipWs parts'.2) with
        | none => exact .error not_false
        | some rest => exact .ok ⟨rfl, sliceFrom_of_stripPrefix hrest hend⟩

/-- The prefix directives, if the rounds suffice. -/
theorem parseDirectives_reads {more : Nat}
    (h : sliceFrom pos src = some cs) (hmore : cs.length < more) :
    ReadsFrom src (parseDirectives src more vocab pos) (Turtle.parseDirectives vocab cs) := by
  induction more generalizing pos cs vocab with
  | zero => omega
  | succ more ih =>
    obtain ⟨start, hstart, hcs⟩ := skipWs_eq h
    rw [parseDirectives, Checked.lift_bind hstart, Checked.lift_bind hcs,
      Turtle.parseDirectives_eq]
    cases hdirective : stripPrefix "@prefix".toList (Turtle.skipWs cs) with
    | none => exact .ok ⟨rfl, hcs⟩
    | some directive =>
      refine (parsePrefix_reads (sliceFrom_of_stripPrefix hcs hdirective)).bind ?_
      rintro ⟨binding, pos'⟩ ⟨-, rest⟩ hbinding ⟨rfl, hpos'⟩
      have hlt : rest.length < more := by
        have hlen := length_of_stripPrefix hdirective
        have hbinding := length_of_parsePrefix hbinding
        have hstart := length_skipWs_le cs
        simp only at hbinding
        omega
      exact ih hpos' hlt

/-- The parser does on every source what it does on texts, never out of bounds. -/
theorem parse_agrees (src : List Char) :
    Agrees (fun _ => False) Eq (parse src) (Turtle.parse src) := by
  have hsrc := sliceFrom_zero src
  refine (parseDirectives_reads hsrc (length_lt_rounds hsrc)).bind ?_
  rintro ⟨vocab, pos⟩ ⟨-, rest⟩ - ⟨rfl, hpos⟩
  exact parseStatements_agrees [] hpos (length_lt_rounds hpos)

/-- The parser returns from every source. -/
theorem parse_returns (src : List Char) : (parse src).run.isSome := by
  rw [← Option.ne_none_iff_isSome]
  intro h
  obtain ⟨e, -, he⟩ := (parse_agrees src).eq_none_iff.mp h
  exact he

end Turtle.Parser

end AtomrOntology
