import AtomrOntology.Core.Cursor
import AtomrOntology.Rdf.Lines

/-!
# N-Triples by byte offsets

The parser as it is written: terms are sliced out of a line at the offsets of bytes, and a
literal is read in a loop over its bytes, which looks four or eight bytes ahead for `\u` and `\U`.
-/

namespace AtomrOntology

namespace NTriples.Bytes

/-- The character of `digits` hexadecimal digits after the `\u` or `\U` at an offset. -/
def codePoint (input : List Char) (marker : Char) (digits i : Nat) :
    Checked LineError (List Char) :=
  if (utf8 (.ofList input)).length ≤ i + digits then throw (.shortEscape marker)
  else do
    let hex ← slice (i + 1) (i + 1 + digits) input
    match hexNumber hex with
    | none => throw (.notHexadecimal (.ofList hex))
    | some n => return ofCodePoint n

/-- What the byte at an offset stands for after a backslash, and how many bytes it takes along. -/
def escapeAt (input : List Char) (b : UInt8) (i : Nat) : Checked LineError (List Char × Nat) :=
  if b = 'n'.toUInt8 then return (['\n'], 0)
  else if b = 'r'.toUInt8 then return (['\r'], 0)
  else if b = 't'.toUInt8 then return (['\t'], 0)
  else if b = '"'.toUInt8 then return (['"'], 0)
  else if b = '\\'.toUInt8 then return (['\\'], 0)
  else if b = 'u'.toUInt8 then return (← codePoint input 'u' 4 i, 4)
  else if b = 'U'.toUInt8 then return (← codePoint input 'U' 8 i, 8)
  else throw .unknownEscape

/-- The loop of `parse_literal`: the lexical form and the offset after the closing quote. -/
def literalLoop (input : List Char) (i : Nat) (lexical : List Char) :
    Checked LineError (List Char × Nat) :=
  if h : i < (utf8 (.ofList input)).length then
    if (utf8 (.ofList input))[i] = '\\'.toUInt8 then
      if h' : i + 1 < (utf8 (.ofList input)).length then do
        let (chars, n) ← escapeAt input (utf8 (.ofList input))[i + 1] (i + 1)
        literalLoop input (i + 1 + n + 1) (lexical ++ chars)
      else throw .danglingEscape
    else if (utf8 (.ofList input))[i] = '"'.toUInt8 then return (lexical, i + 1)
    else literalLoop input (i + 1) (lexical ++ [byteAsChar (utf8 (.ofList input))[i]])
  else throw .unterminatedLiteral
termination_by (utf8 (.ofList input)).length - i

/-- A name up to a blank or a dot, and what follows it. -/
def name (cs : List Char) : Option (List Char × List Char) := do
  let stop := (findChar endsName cs).getD (byteLength cs)
  return (← sliceTo stop cs, ← sliceFrom stop cs)

/-- `parse_literal`. -/
def parseLiteral (input : List Char) : Checked LineError (Term × List Char) := do
  let (lexical, i) ← literalLoop input 1 []
  let rest ← sliceFrom i input
  match stripPrefix ['@'] rest with
  | some langRest =>
    let (lang, rest) ← name langRest
    return (.literal (.ofList lexical) Turtle.langString (some (.ofList lang)), rest)
  | none =>
    match stripPrefix ['^', '^'] rest with
    | some dtRest =>
      let dtRest := trimStart dtRest
      if (utf8 (.ofList dtRest)).head? ≠ some '<'.toUInt8 then throw .expectedDatatype
      else
        match findChar (· == '>') dtRest with
        | none => throw .unterminatedDatatype
        | some stop =>
          let iri ← slice 1 stop dtRest
          let rest ← sliceFrom (stop + 1) dtRest
          return (.literal (.ofList lexical) ⟨.ofList iri⟩ none, rest)
    | none => return (.literal (.ofList lexical) xsdString none, rest)

/-- `parse_term`. -/
def parseTerm (input : List Char) : Checked LineError (Term × List Char) :=
  let bytes := utf8 (.ofList input)
  match input with
  | [] => throw .noTerm
  | first :: _ =>
    if bytes[0]? = some '<'.toUInt8 then
      match findChar (· == '>') input with
      | none => throw .unterminatedIri
      | some stop => do
        let iri ← slice 1 stop input
        let rest ← sliceFrom (stop + 1) input
        return (.iri ⟨.ofList iri⟩, rest)
    else if bytes[0]? = some '_'.toUInt8 ∧ bytes[1]? = some ':'.toUInt8 then do
      let rest ← sliceFrom 2 input
      let (label, rest) ← name rest
      return (.blank (.ofList label), rest)
    else if bytes[0]? = some '"'.toUInt8 then parseLiteral input
    else throw (.unexpectedStart first)

/-- The three terms of `parse_triple`. -/
def parseTerms (line : List Char) : Checked LineError Triple := do
  let (subject, rest) ← parseTerm line
  let (predicate, rest) ← parseTerm (trimStart rest)
  let predicate ← predicate.toPredicate
  let (object, rest) ← parseTerm (trimStart rest)
  if trimChars rest = [] then
    let subject ← subject.toSubject
    return ⟨subject, predicate, object.toObject⟩
  else throw (.trailingData (.ofList rest))

/-- `parse_triple`. -/
def parseTriple (line : List Char) : Checked LineError Triple :=
  if (trimEnd line).getLast? = some '.' then parseTerms (trimChars (trimEnd line).dropLast)
  else throw .missingDot

/-- The loop of `parse` over numbered lines. -/
def parseLines (lineno : Nat) (out : List Triple) :
    List (List Char) → Checked (Nat × LineError) (List Triple)
  | [] => return out
  | raw :: rest =>
    let line := trimChars raw
    if line = [] ∨ line.head? = some '#' then parseLines (lineno + 1) out rest
    else
      match (parseTriple line).run with
      | none => ExceptT.mk none
      | some (.ok t) => parseLines (lineno + 1) (out ++ [t]) rest
      | some (.error e) => throw (lineno, e)

/-- `ntriples::parse`. -/
def parse (input : List Char) : Checked (Nat × LineError) (List Triple) :=
  parseLines 1 [] (lines input)

/-- The error that stands for a slice inside a character. -/
def Panics (e : LineError) : Prop := e = .insideCharacter

variable {input cs : List Char} {i : Nat}

/-- Taking bytes is slicing them off. -/
theorem sliceTo_of_takeBytes {n : Nat} {hex rest : List Char}
    (h : takeBytes n cs = some (hex, rest)) : sliceTo n cs = some hex := by
  obtain ⟨rfl, hlen⟩ := takeBytes_eq_some_iff.mp h
  exact sliceTo_eq_some_iff.mpr ⟨List.prefix_append hex rest, hlen⟩

/-- Bytes that cannot be taken cannot be sliced off. -/
theorem sliceTo_of_takeBytes_none {n : Nat} (h : takeBytes n cs = none) : sliceTo n cs = none := by
  cases hslice : sliceTo n cs with
  | none => rfl
  | some hex =>
    obtain ⟨⟨rest, rfl⟩, hlen⟩ := sliceTo_eq_some_iff.mp hslice
    rw [takeBytes_eq_some_iff.mpr ⟨rfl, hlen⟩] at h
    cases h

/-- A character escaped by its number: the slice is in bounds exactly if the bytes can be taken. -/
theorem codePoint_agrees {marker c : Char} {digits : Nat}
    (h : sliceFrom i input = some (c :: cs)) (hc : c.utf8Size = 1) :
    Agrees Panics (fun a b => a = b.1 ∧ sliceFrom (i + digits + 1) input = some b.2)
      (codePoint input marker digits i) (readCodePoint marker digits cs) := by
  have hnext := sliceFrom_tail h hc
  have hlen : (utf8 (.ofList input)).length = i + (1 + byteLength cs) := by
    obtain ⟨front, rfl, rfl⟩ := sliceFrom_eq_some_iff.mp h
    rw [length_utf8_ofList, byteLength_append, byteLength_cons, hc]
  rw [codePoint, readCodePoint, length_utf8_ofList cs]
  by_cases hshort : byteLength cs < digits
  · rw [if_pos (by omega), if_pos hshort]
    exact .error (by simp [Panics])
  · rw [if_neg (by omega), if_neg hshort]
    have hslice : slice (i + 1) (i + 1 + digits) input = sliceTo digits cs := by
      rw [slice, if_pos (Nat.le_add_right _ _), hnext, Option.bind_some, Nat.add_sub_cancel_left]
    rw [hslice]
    cases htake : takeBytes digits cs with
    | none =>
      rw [sliceTo_of_takeBytes_none htake]
      exact .stop rfl
    | some parts =>
      obtain ⟨hex, rest⟩ := parts
      obtain ⟨rfl, hdigits⟩ := takeBytes_eq_some_iff.mp htake
      dsimp only
      rw [Checked.lift_bind (sliceTo_of_takeBytes htake)]
      cases hexNumber hex with
      | none => exact .error (by simp [Panics])
      | some n =>
        refine .ok ⟨rfl, ?_⟩
        have hrest := sliceFrom_add hnext
        rw [hdigits] at hrest
        rwa [Nat.add_right_comm]

/-- An escape at an offset, after the backslash. -/
theorem escapeAt_agrees {c : Char} {b : UInt8} {more : List UInt8}
    (h : sliceFrom i input = some (c :: cs)) (hb : utf8 (.singleton c) = b :: more) :
    Agrees Panics (fun a r => a.1 = r.1 ∧ sliceFrom (i + a.2 + 1) input = some r.2)
      (escapeAt input b i) (readEscape (c :: cs)) := by
  have hbyte : c.toNat < 128 → b = c.toUInt8 := by
    intro hc
    rw [utf8_singleton_of_ascii hc] at hb
    exact (List.cons.inj hb).1.symm
  have htold : ∀ d : Char, d.toNat < 128 → b = d.toUInt8 → c = d := by
    rintro d hd rfl
    exact eq_of_mem_utf8_singleton hd (hb ▸ List.mem_cons_self)
  by_cases hsimple : c ∈ ['n', 'r', 't', '"', '\\']
  · simp only [List.mem_cons, List.not_mem_nil, or_false] at hsimple
    rcases hsimple with rfl | rfl | rfl | rfl | rfl
    all_goals
      rw [hbyte (by decide)]
      exact .ok ⟨rfl, sliceFrom_tail h rfl⟩
  · simp only [List.mem_cons, List.not_mem_nil, or_false, not_or] at hsimple
    obtain ⟨hn, hr, ht, hquote, hback⟩ := hsimple
    rw [escapeAt, if_neg (mt (htold 'n' (by decide)) hn), if_neg (mt (htold 'r' (by decide)) hr),
      if_neg (mt (htold 't' (by decide)) ht), if_neg (mt (htold '"' (by decide)) hquote),
      if_neg (mt (htold '\\' (by decide)) hback)]
    by_cases hu : c = 'u'
    · subst hu
      rw [if_pos (hbyte (by decide))]
      exact (codePoint_agrees h rfl).along fun _ _ hr => hr
    · by_cases hU : c = 'U'
      · subst hU
        rw [if_neg (by rw [hbyte (by decide)]; decide), if_pos (hbyte (by decide))]
        exact (codePoint_agrees h rfl).along fun _ _ hr => hr
      · rw [if_neg (mt (htold 'u' (by decide)) hu), if_neg (mt (htold 'U' (by decide)) hU)]
        have hread : readEscape (c :: cs) = .error .unknownEscape := by
          unfold readEscape
          split <;> simp_all
        rw [hread]
        exact .error (by simp [Panics])

/-- Other bytes are characters. -/
theorem literalLoop_plain {lexical : List Char} {b : UInt8}
    (h : (utf8 (.ofList input))[i]? = some b) (hplain : ∀ d ∈ ['\\', '"'], b ≠ d.toUInt8) :
    literalLoop input i lexical = literalLoop input (i + 1) (lexical ++ [byteAsChar b]) := by
  obtain ⟨hi, rfl⟩ := List.getElem?_eq_some_iff.mp h
  rw [literalLoop, dif_pos hi, if_neg (hplain '\\' (by simp)), if_neg (hplain '"' (by simp))]

/-- A quote closes the literal. -/
theorem literalLoop_quote {lexical : List Char}
    (h : (utf8 (.ofList input))[i]? = some '"'.toUInt8) :
    literalLoop input i lexical = pure (lexical, i + 1) := by
  obtain ⟨hi, hb⟩ := List.getElem?_eq_some_iff.mp h
  rw [literalLoop, dif_pos hi, if_neg (by rw [hb]; decide), if_pos hb]

/-- A backslash takes an escape along. -/
theorem literalLoop_escape {lexical : List Char}
    (h : (utf8 (.ofList input))[i]? = some '\\'.toUInt8) :
    literalLoop input i lexical = match (utf8 (.ofList input))[i + 1]? with
      | some b => (do
        let (chars, n) ← escapeAt input b (i + 1)
        literalLoop input (i + 1 + n + 1) (lexical ++ chars))
      | none => throw .danglingEscape := by
  obtain ⟨hi, hb⟩ := List.getElem?_eq_some_iff.mp h
  rw [literalLoop, dif_pos hi, if_pos hb]
  by_cases hnext : i + 1 < (utf8 (.ofList input)).length
  · rw [dif_pos hnext, List.getElem?_eq_getElem hnext]
  · rw [dif_neg hnext, List.getElem?_eq_none (Nat.not_lt.mp hnext)]

/-- The loop reads what is left of a literal. -/
theorem literalLoop_agrees {lexical : List Char} (h : sliceFrom i input = some cs) :
    Agrees Panics (fun a b => a.1 = lexical ++ b.1 ∧ sliceFrom a.2 input = some b.2)
      (literalLoop input i lexical) (literalBody cs) := by
  induction hn : cs.length using Nat.strong_induction_on generalizing cs i lexical with
  | h n ih =>
    cases cs with
    | nil =>
      have hend := getElem?_of_sliceFrom h
      rw [literalLoop, dif_neg (Nat.not_lt.mpr (List.getElem?_eq_none_iff.mp hend)), literalBody]
      exact .error (by simp [Panics])
    | cons c cs =>
      rw [List.length_cons] at hn
      rw [literalBody_cons]
      by_cases hback : c = '\\'
      · subst hback
        have hnext : sliceFrom (i + 1) input = some cs := sliceFrom_tail h rfl
        rw [if_pos rfl, literalLoop_escape (getElem?_ascii h (by decide)),
          getElem?_of_sliceFrom hnext]
        cases cs with
        | nil => exact .error (by simp [Panics])
        | cons e cs =>
          obtain ⟨b, more, hb⟩ := List.exists_cons_of_ne_nil (utf8_singleton_ne_nil e)
          rw [utf8_ofList_cons, hb]
          refine (escapeAt_agrees hnext hb).bind ?_
          rintro ⟨chars, k⟩ ⟨-, rest⟩ hread ⟨rfl, hrest⟩
          have hlen := length_of_readEscape hread
          dsimp only at hlen hrest ⊢
          refine (ih rest.length (by omega) hrest rfl).finish ?_
          rintro a b ⟨hlexical, hstop⟩
          exact ⟨by rw [hlexical, List.append_assoc], hstop⟩
      · rw [if_neg hback]
        by_cases hquote : c = '"'
        · subst hquote
          rw [if_pos rfl, literalLoop_quote (getElem?_ascii h (by decide))]
          exact .ok ⟨(List.append_nil _).symm, sliceFrom_tail h rfl⟩
        · rw [if_neg hquote]
          have hchar := loop_char ['\\', '"'] h (literalLoop input)
            (fun i lexical b hb hplain => literalLoop_plain hb hplain) lexical (by simp)
            (by simp [hback, hquote])
          rw [hchar]
          refine (ih cs.length (by omega) (sliceFrom_next h) rfl).finish ?_
          rintro a b ⟨hlexical, hstop⟩
          exact ⟨by rw [hlexical, List.append_assoc]; rfl, hstop⟩

/-- A name is what stands before the first character that ends it. -/
theorem name_eq (cs : List Char) :
    name cs = some (cs.takeWhile (!endsName ·), cs.dropWhile (!endsName ·)) := by
  have hrest := sliceFrom_dropWhile (!endsName ·) (sliceFrom_zero cs)
  rw [Nat.zero_add] at hrest
  rw [name, getD_findChar, sliceTo_takeWhile, hrest]
  rfl

/-- A literal. -/
theorem parseLiteral_agrees (cs : List Char) :
    Agrees Panics Eq (parseLiteral ('"' :: cs)) (NTriples.parseLiteral cs) := by
  have hstart : sliceFrom 1 ('"' :: cs) = some cs := sliceFrom_append ['"'] cs
  rw [parseLiteral, NTriples.parseLiteral]
  refine (literalLoop_agrees hstart).bind ?_
  rintro ⟨lexical, i⟩ ⟨-, rest⟩ - ⟨rfl, hrest⟩
  dsimp only at hrest ⊢
  rw [Checked.lift_bind hrest]
  cases hat : stripPrefix ['@'] rest with
  | some lang =>
    dsimp only
    rw [Checked.lift_bind (name_eq lang)]
    exact .ok rfl
  | none =>
    dsimp only
    cases hcarets : stripPrefix ['^', '^'] rest with
    | none => exact .ok rfl
    | some datatype =>
      dsimp only
      cases htrim : trimStart datatype with
      | nil => exact .error (by simp [Panics])
      | cons c body =>
        have hfirst := sliceFrom_zero (c :: body)
        rw [List.head?_eq_getElem?]
        by_cases hopen : c = '<'
        · subst hopen
          have hstrip : stripPrefix ['<'] ('<' :: body) = some body := stripPrefix_append ['<'] body
          rw [if_neg (not_not.mpr (getElem?_ascii hfirst (by decide))), hstrip]
          dsimp only
          cases hclose : splitOnce '>' body with
          | none =>
            rw [not_bracketed '<' (by decide) hclose]
            exact .error (by simp [Panics])
          | some parts =>
            obtain ⟨iri, rest'⟩ := parts
            obtain ⟨hfind, hiri, hrest'⟩ := bracketed '<' (by decide) rfl rfl hclose
            rw [hfind]
            dsimp only
            rw [Checked.lift_bind hiri, Checked.lift_bind hrest']
            exact .ok rfl
        · have hstrip : stripPrefix ['<'] (c :: body) = none := by
            rw [stripPrefix, if_neg]
            rw [List.cons_prefix_cons]
            exact fun h => hopen h.1.symm
          rw [if_pos (mt (getElem?_eq_ascii_iff hfirst (by decide)).mp hopen), hstrip]
          exact .error (by simp [Panics])

/-- A term. -/
theorem parseTerm_agrees (cs : List Char) :
    Agrees Panics Eq (parseTerm cs) (NTriples.parseTerm cs) := by
  cases cs with
  | nil => exact .error (by simp [Panics])
  | cons c cs =>
    have hfirst := sliceFrom_zero (c :: cs)
    unfold parseTerm
    dsimp only
    by_cases hopen : c = '<'
    · subst hopen
      rw [if_pos (getElem?_ascii hfirst (by decide)), NTriples.parseTerm]
      cases hclose : splitOnce '>' cs with
      | none =>
        rw [not_bracketed '<' (by decide) hclose]
        exact .error (by simp [Panics])
      | some parts =>
        obtain ⟨iri, rest⟩ := parts
        obtain ⟨hfind, hiri, hrest⟩ := bracketed '<' (by decide) rfl rfl hclose
        rw [hfind]
        dsimp only
        rw [Checked.lift_bind hiri, Checked.lift_bind hrest]
        exact .ok rfl
    · rw [if_neg (mt (getElem?_eq_ascii_iff hfirst (by decide)).mp hopen)]
      by_cases hblank : c = '_' ∧ cs.head? = some ':'
      · obtain ⟨rfl, hcolon⟩ := hblank
        obtain ⟨rest, rfl⟩ : ∃ rest, cs = ':' :: rest := List.head?_eq_some_iff.mp hcolon
        have hrest : sliceFrom 2 ('_' :: ':' :: rest) = some rest :=
          sliceFrom_append ['_', ':'] rest
        have hsecond : sliceFrom 1 ('_' :: ':' :: rest) = some (':' :: rest) :=
          sliceFrom_append ['_'] (':' :: rest)
        rw [if_pos ⟨getElem?_ascii hfirst (by decide), getElem?_ascii hsecond (by decide)⟩,
          Checked.lift_bind hrest, Checked.lift_bind (name_eq rest)]
        exact .ok rfl
      · have hnot : ¬((utf8 (.ofList (c :: cs)))[0]? = some '_'.toUInt8 ∧
            (utf8 (.ofList (c :: cs)))[1]? = some ':'.toUInt8) := by
          rintro ⟨hfirstByte, hsecondByte⟩
          obtain rfl := (getElem?_eq_ascii_iff hfirst (by decide)).mp hfirstByte
          have hsecond : sliceFrom 1 ('_' :: cs) = some cs := sliceFrom_append ['_'] cs
          cases cs with
          | nil =>
            rw [getElem?_of_sliceFrom hsecond] at hsecondByte
            cases hsecondByte
          | cons d cs =>
            obtain rfl := (getElem?_eq_ascii_iff hsecond (by decide)).mp hsecondByte
            exact hblank ⟨rfl, rfl⟩
        rw [if_neg hnot]
        by_cases hquote : c = '"'
        · subst hquote
          rw [if_pos (getElem?_ascii hfirst (by decide))]
          exact parseLiteral_agrees cs
        · rw [if_neg (mt (getElem?_eq_ascii_iff hfirst (by decide)).mp hquote)]
          have hstart : NTriples.parseTerm (c :: cs) = .error (.unexpectedStart c) := by
            unfold NTriples.parseTerm
            split <;> simp_all
          rw [hstart]
          exact .error (by simp [Panics])

/-- A term as a predicate. -/
theorem toPredicate_agrees (t : Term) :
    Agrees Panics Eq (monadLift t.toPredicate : Checked LineError Iri) t.toPredicate := by
  cases t with
  | iri i => exact .ok rfl
  | blank label => exact .error (by simp [Panics])
  | literal lexical datatype language => exact .error (by simp [Panics])

/-- A term as a subject. -/
theorem toSubject_agrees (t : Term) :
    Agrees Panics Eq (monadLift t.toSubject : Checked LineError Subject) t.toSubject := by
  cases t with
  | iri i => exact .ok rfl
  | blank label => exact .ok rfl
  | literal lexical datatype language => exact .error (by simp [Panics])

/-- The three terms of a line. -/
theorem parseTerms_agrees (line : List Char) :
    Agrees Panics Eq (parseTerms line) (NTriples.parseTerms line) := by
  refine (parseTerm_agrees line).bind ?_
  rintro - ⟨subject, rest⟩ - rfl
  refine (parseTerm_agrees (trimStart rest)).bind ?_
  rintro - ⟨predicate, rest'⟩ - rfl
  refine (toPredicate_agrees predicate).bind ?_
  rintro - iri - rfl
  refine (parseTerm_agrees (trimStart rest')).bind ?_
  rintro - ⟨object, rest''⟩ - rfl
  dsimp only
  by_cases hend : trimChars rest'' = []
  · rw [if_pos hend, if_pos hend]
    refine (toSubject_agrees subject).bind ?_
    rintro - s - rfl
    exact .ok rfl
  · rw [if_neg hend, if_neg hend]
    exact .error (by simp [Panics])

/-- A line. -/
theorem parseTriple_agrees (line : List Char) :
    Agrees Panics Eq (parseTriple line) (NTriples.parseTriple line) := by
  rw [parseTriple, NTriples.parseTriple]
  by_cases hdot : (trimEnd line).getLast? = some '.'
  · rw [if_pos hdot, if_pos hdot]
    exact parseTerms_agrees _
  · rw [if_neg hdot, if_neg hdot]
    exact .error (by simp [Panics])

/-- Numbered lines. -/
theorem parseLines_agrees (lineno : Nat) (out : List Triple) (ls : List (List Char)) :
    Agrees (fun e => Panics e.2) (fun a b => a = out ++ b) (parseLines lineno out ls)
      (NTriples.parseLines lineno ls) := by
  induction ls generalizing lineno out with
  | nil => exact .ok (List.append_nil out).symm
  | cons raw ls ih =>
    rw [parseLines, NTriples.parseLines]
    by_cases hskip : trimChars raw = [] ∨ (trimChars raw).head? = some '#'
    · rw [if_pos hskip, if_pos hskip]
      exact ih (lineno + 1) out
    · rw [if_neg hskip, if_neg hskip]
      have hline := parseTriple_agrees (trimChars raw)
      generalize parseTriple (trimChars raw) = x, NTriples.parseTriple (trimChars raw) = y at hline
      cases hline with
      | error h => exact .error h
      | stop h => exact .stop h
      | ok h =>
        subst h
        refine (ih (lineno + 1) (out ++ [_])).finish ?_
        rintro - others rfl
        exact List.append_assoc _ _ _

/-- The parser of bytes does what the parser of lines does. -/
theorem parse_agrees (input : String) :
    Agrees (fun e => Panics e.2) Eq (parse input.toList) (NTriples.parse input) :=
  parseLines_agrees 1 [] _

end NTriples.Bytes

end AtomrOntology
