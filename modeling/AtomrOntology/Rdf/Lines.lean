import AtomrOntology.Rdf.Export
import AtomrOntology.Rdf.NTriples
import AtomrOntology.Rdf.ReadsBack

/-!
# Which projections survive N-Triples?

A written literal comes back with every byte as a character of its own, so it must be
ASCII. An IRI is written as it is: a `>` ends it early, and a newline ends its line.
-/

namespace AtomrOntology

/-- A character takes as many characters as it has bytes. -/
theorem length_bytesAsChars (c : Char) : (bytesAsChars c).length = c.utf8Size := by
  have henc : utf8 (.singleton c) = String.utf8EncodeChar c := by
    simp [utf8, List.utf8Encode]
  rw [bytesAsChars, List.length_map, henc, String.length_utf8EncodeChar]

theorem utf8Size_eq_one_iff {c : Char} : c.utf8Size = 1 ↔ c.toNat < 128 := by
  rw [Char.utf8Size_eq_one_iff, UInt32.le_iff_toNat_le]
  exact Nat.lt_succ_iff.symm

theorem length_le_flatMap_bytesAsChars (cs : List Char) :
    cs.length ≤ (cs.flatMap bytesAsChars).length := by
  induction cs with
  | nil => exact le_rfl
  | cons c cs ih =>
    have hpos := c.utf8Size_pos
    rw [List.flatMap_cons, List.length_append, length_bytesAsChars, List.length_cons]
    omega

/-- A text is its own bytes exactly if it is ASCII. -/
theorem flatMap_bytesAsChars_iff {cs : List Char} :
    cs.flatMap bytesAsChars = cs ↔ ∀ c ∈ cs, c.toNat < 128 := by
  constructor
  · induction cs with
    | nil => simp
    | cons c cs ih =>
      intro h
      have hlen := congrArg List.length h
      have hle := length_le_flatMap_bytesAsChars cs
      have hpos := c.utf8Size_pos
      rw [List.flatMap_cons, List.length_append, length_bytesAsChars, List.length_cons] at hlen
      have hone : c.utf8Size = 1 := by omega
      have hascii := utf8Size_eq_one_iff.mp hone
      rw [List.flatMap_cons, bytesAsChars_of_ascii hascii] at h
      intro d hd
      rcases List.mem_cons.mp hd with rfl | hd
      · exact hascii
      · exact ih (List.cons.inj h).2 d hd
  · intro h
    induction cs with
    | nil => rfl
    | cons c cs ih =>
      have hrest := ih fun d hd => h d (List.mem_cons_of_mem c hd)
      rw [List.flatMap_cons, bytesAsChars_of_ascii (h c List.mem_cons_self), hrest]
      rfl

namespace NTriples

/-- A character is written as itself, or as an escape that is read back. -/
theorem escape_cases (c : Char) :
    (escape c = [c] ∧ c ≠ '\\' ∧ c ≠ '"' ∧ c ≠ '\n') ∨
      ∃ e, escape c = ['\\', e] ∧ e ≠ '\n' ∧ c.toNat < 128 ∧
        ∀ rest, readEscape (e :: rest) = .ok ([c], rest) := by
  unfold escape
  split
  case h_6 hback hquote hline _ _ => exact Or.inl ⟨rfl, hback, hquote, hline⟩
  all_goals exact Or.inr ⟨_, rfl, by decide, by decide, fun _ => rfl⟩

/-- A literal is read character by character, up to its closing quote. -/
theorem literalBody_cons (c : Char) (rest : List Char) : literalBody (c :: rest) =
    if c = '\\' then (do
      let (chars, rest) ← readEscape rest
      let (lexical, rest) ← literalBody rest
      return (chars ++ lexical, rest))
    else if c = '"' then .ok ([], rest)
    else (do
      let (lexical, rest) ← literalBody rest
      return (bytesAsChars c ++ lexical, rest)) := by
  rw [literalBody]
  split
  · split
    · next e he => rw [he]; rfl
    · next chars rest' he => rw [he]; rfl
  · rfl

/-- The lexical form of a written literal comes back as its bytes. -/
theorem literalBody_written (lexical rest : List Char) :
    literalBody (lexical.flatMap escape ++ '"' :: rest) =
      .ok (lexical.flatMap bytesAsChars, rest) := by
  induction lexical with
  | nil =>
    rw [List.flatMap_nil, List.nil_append, literalBody_cons]
    rfl
  | cons c lexical ih =>
    rw [List.flatMap_cons, List.append_assoc]
    rcases escape_cases c with ⟨hc, hback, hquote, -⟩ | ⟨e, hc, -, hascii, hread⟩
    · rw [hc, List.singleton_append, literalBody_cons, if_neg hback, if_neg hquote, ih]
      rfl
    · rw [hc, List.cons_append, List.singleton_append, literalBody_cons, if_pos rfl, hread]
      simp only [bind, Except.bind, ih]
      rw [List.flatMap_cons, bytesAsChars_of_ascii hascii]
      rfl

/-- A written IRI is read back. -/
theorem parseTerm_pushIri {iri : Iri} (rest : List Char) (h : '>' ∉ iri.value.toList) :
    parseTerm (pushIri iri ++ rest) = .ok (.iri iri, rest) := by
  have htext : pushIri iri ++ rest = '<' :: (iri.value.toList ++ '>' :: rest) := by
    simp [pushIri]
  rw [htext, parseTerm, splitOnce_append _ h]
  simp only [String.ofList_toList]

/-- A label is followed by a blank or by nothing. -/
theorem parseTerm_blank {label : String} {rest : List Char}
    (h : ∀ c ∈ label.toList, endsName c = false) (hrest : rest = [] ∨ rest.head? = some ' ') :
    parseTerm ('_' :: ':' :: label.toList ++ rest) = .ok (.blank label, rest) := by
  have hpos : ∀ c ∈ label.toList, (!endsName c) = true := by
    intro c hc
    rw [h c hc]
    rfl
  have htake : (label.toList ++ rest).takeWhile (!endsName ·) = label.toList := by
    rw [List.takeWhile_append_of_pos hpos]
    rcases hrest with rfl | hhead
    · simp
    · obtain ⟨tail, rfl⟩ : ∃ tail, rest = ' ' :: tail :=
        ⟨rest.tail, (List.cons_head?_tail hhead).symm⟩
      simp [endsName, isWhitespace]
  have hdrop : (label.toList ++ rest).dropWhile (!endsName ·) = rest := by
    rw [List.dropWhile_append_of_pos hpos]
    rcases hrest with rfl | hhead
    · simp
    · obtain ⟨tail, rfl⟩ : ∃ tail, rest = ' ' :: tail :=
        ⟨rest.tail, (List.cons_head?_tail hhead).symm⟩
      simp [endsName, isWhitespace]
  rw [List.cons_append, List.cons_append, parseTerm, htake, hdrop, String.ofList_toList]

/-- A literal as it comes back: with its bytes as characters. -/
def received : Object → Object
  | .literal lexical datatype language =>
    .literal (.ofList (lexical.toList.flatMap bytesAsChars)) datatype language
  | object => object

/-- A written literal is read back byte by byte. -/
theorem parseTerm_literal (lexical : String) {datatype : Iri} (rest : List Char)
    (h : '>' ∉ datatype.value.toList) :
    parseTerm (pushObject (.literal lexical datatype none) ++ rest) =
      .ok (.literal (.ofList (lexical.toList.flatMap bytesAsChars)) datatype none, rest) := by
  have htext : pushObject (.literal lexical datatype none) ++ rest =
      '"' :: (lexical.toList.flatMap escape ++ '"' :: (['^', '^'] ++
        (['<'] ++ (datatype.value.toList ++ '>' :: rest)))) := by
    simp [pushObject, pushIri]
  have hlang : stripPrefix ['@'] (['^', '^'] ++
      (['<'] ++ (datatype.value.toList ++ '>' :: rest))) = none := by
    simp [stripPrefix]
  have htrim : trimStart (['<'] ++ (datatype.value.toList ++ '>' :: rest)) =
      ['<'] ++ (datatype.value.toList ++ '>' :: rest) := by
    simp [trimStart, isWhitespace]
  rw [htext, parseTerm, parseLiteral, literalBody_written]
  simp only [bind, Except.bind, hlang, stripPrefix_append, htrim, splitOnce_append _ h,
    String.ofList_toList]
  rfl

theorem trimStart_eq_self {cs : List Char} (h : ∀ c ∈ cs.head?, isWhitespace c = false) :
    trimStart cs = cs := by
  cases cs with
  | nil => rfl
  | cons c cs =>
    have hc := h c rfl
    simp [trimStart, hc]

/-- Blanks at the end are trimmed. -/
theorem trimEnd_append {cs ws : List Char} (h : ∀ c ∈ cs.getLast?, isWhitespace c = false)
    (hws : ∀ c ∈ ws, isWhitespace c = true) : trimEnd (cs ++ ws) = cs := by
  have hrev : ∀ c ∈ ws.reverse, isWhitespace c = true := by
    intro c hc
    exact hws c (List.mem_reverse.mp hc)
  have hhead : ∀ c ∈ cs.reverse.head?, isWhitespace c = false := by
    rw [List.head?_reverse]
    exact h
  have hself := trimStart_eq_self hhead
  rw [trimStart] at hself
  rw [trimEnd, List.reverse_append, List.dropWhile_append_of_pos hrev, hself, List.reverse_reverse]

theorem trimChars_eq (cs : List Char) : trimChars cs = trimEnd (trimStart cs) := rfl

theorem trimChars_cons {c : Char} (cs : List Char) (h : isWhitespace c = false) :
    ∃ cs', trimChars (c :: cs) = c :: cs' := by
  have hstart : trimStart (c :: cs) = c :: cs := by
    apply trimStart_eq_self
    intro d hd
    cases hd
    exact h
  rw [trimChars_eq, hstart, trimEnd, List.reverse_cons, List.dropWhile_append]
  split
  · exact ⟨[], by simp [h]⟩
  · exact ⟨_, List.reverse_concat⟩

/-- The carriage return before the end of a line is whitespace. -/
theorem trimChars_stripCr (cs : List Char) : trimChars (stripCr cs) = trimChars cs := by
  unfold stripCr
  split
  · next hlast =>
    obtain ⟨init, rfl⟩ : ∃ init, cs = init ++ ['\r'] :=
      ⟨cs.dropLast, (List.dropLast_append_getLast? '\r' hlast).symm⟩
    rw [List.dropLast_concat, trimChars_eq, trimChars_eq, trimStart, trimStart,
      List.dropWhile_append]
    split
    · next hnil =>
      rw [List.isEmpty_iff.mp hnil]
      simp [isWhitespace]
    · rw [trimEnd, trimEnd, List.reverse_append]
      simp [isWhitespace]
  · rfl

/-- A line goes on up to a line break. -/
theorem linesFrom_append {start line : List Char} (rest : List Char) (h : '\n' ∉ line) :
    linesFrom start (line ++ rest) = linesFrom (start ++ line) rest := by
  induction line generalizing start with
  | nil => simp
  | cons c line ih =>
    rw [List.mem_cons, not_or] at h
    rw [List.cons_append, linesFrom, if_neg (Ne.symm h.1), ih h.2, List.append_assoc]
    rfl

/-- The first line of a text. -/
theorem lines_append {line : List Char} (rest : List Char) (h : '\n' ∉ line) :
    lines (line ++ '\n' :: rest) = stripCr line :: lines rest := by
  rw [lines, linesFrom_append _ h, List.nil_append, linesFrom, if_pos rfl]
  rfl

/-- The IRIs of a triple: all that it names, and the datatype of its literal. -/
def irisOf (t : Triple) : List Iri :=
  (match t.subject with
    | .iri i => [i]
    | .blank _ => []) ++ t.predicate ::
  match t.object with
    | .iri i => [i]
    | .blank _ => []
    | .literal _ datatype _ => [datatype]

/-- The characters of the literal of a triple. -/
def literalOf (t : Triple) : List Char :=
  match t.object with
  | .literal lexical _ _ => lexical.toList
  | _ => []

/-- A triple that one line holds: its IRIs end neither a term nor the line, and its literal is
ASCII. -/
structure Clean (t : Triple) : Prop where
  iris : ∀ i ∈ irisOf t, '>' ∉ i.value.toList ∧ '\n' ∉ i.value.toList
  literal : ∀ c ∈ literalOf t, c.toNat < 128

/-- What holds of every projected triple: a blank subject is named, an object is not blank,
and literals have no language. -/
structure Projected (t : Triple) : Prop where
  subject : ∀ label, t.subject = .blank label → ∀ c ∈ label.toList, endsName c = false
  object : ∀ label, t.object ≠ .blank label
  language : ∀ lexical datatype language, t.object = .literal lexical datatype language →
    language = none

/-- The object of a line ends in an angle bracket. -/
theorem pushObject_last {t : Triple} (h : Projected t) :
    ∃ init, pushObject t.object = init ++ ['>'] := by
  cases hobject : t.object with
  | iri i => exact ⟨'<' :: i.value.toList, rfl⟩
  | blank label => exact absurd hobject (h.object label)
  | literal lexical datatype language =>
    cases h.language _ _ _ hobject
    refine ⟨'"' :: lexical.toList.flatMap escape ++ '"' :: '^' :: '^' :: '<' ::
      datatype.value.toList, ?_⟩
    simp [pushObject, pushIri]

/-- A line starts with its subject. -/
theorem pushSubject_head (s : Subject) : ∃ c cs, pushSubject s = c :: cs ∧
    isWhitespace c = false ∧ c ≠ '#' ∧ c ≠ '\n' := by
  cases s with
  | iri i => exact ⟨'<', _, rfl, by simp [isWhitespace], by decide, by decide⟩
  | blank label => exact ⟨'_', _, rfl, by simp [isWhitespace], by decide, by decide⟩

/-- A written subject is read back. -/
theorem parseTerm_pushSubject {t : Triple} (h : Projected t) (rest : List Char)
    (hiris : ∀ i ∈ irisOf t, '>' ∉ i.value.toList) : ∃ term,
      parseTerm (pushSubject t.subject ++ ' ' :: rest) = .ok (term, ' ' :: rest) ∧
        term.toSubject = .ok t.subject := by
  cases hsubject : t.subject with
  | iri i =>
    have hi : i ∈ irisOf t := by simp [irisOf, hsubject]
    exact ⟨.iri i, parseTerm_pushIri _ (hiris i hi), rfl⟩
  | blank label =>
    exact ⟨.blank label, parseTerm_blank (h.subject label hsubject) (Or.inr rfl), rfl⟩

/-- A written object is read back. -/
theorem parseTerm_pushObject {t : Triple} (h : Projected t)
    (hiris : ∀ i ∈ irisOf t, '>' ∉ i.value.toList) : ∃ term,
      parseTerm (pushObject t.object) = .ok (term, []) ∧ term.toObject = received t.object := by
  cases hobject : t.object with
  | iri i =>
    have hi : i ∈ irisOf t := by simp [irisOf, hobject]
    have hparse := parseTerm_pushIri [] (hiris i hi)
    rw [List.append_nil] at hparse
    exact ⟨.iri i, hparse, rfl⟩
  | blank label => exact absurd hobject (h.object label)
  | literal lexical datatype language =>
    cases h.language _ _ _ hobject
    have hi : datatype ∈ irisOf t := by simp [irisOf, hobject]
    have hparse := parseTerm_literal lexical [] (hiris datatype hi)
    rw [List.append_nil] at hparse
    exact ⟨_, hparse, rfl⟩

/-- A line ends in a dot. -/
theorem pushTriple_eq (t : Triple) : pushTriple t = (pushSubject t.subject ++ ' ' ::
    (pushIri t.predicate ++ ' ' :: (pushObject t.object ++ [' ']))) ++ ['.'] := by
  simp [pushTriple]

/-- A written triple has no blanks at its end. -/
theorem trimEnd_pushTriple (t : Triple) : trimEnd (pushTriple t) = pushTriple t := by
  have hdot : ∀ c ∈ (pushTriple t).getLast?, isWhitespace c = false := by
    rw [pushTriple_eq, List.getLast?_concat]
    intro c hc
    cases hc
    simp [isWhitespace]
  have htrim := trimEnd_append hdot (List.forall_mem_nil (isWhitespace · = true))
  rwa [List.append_nil] at htrim

/-- Nor in front. -/
theorem trimChars_pushTriple (t : Triple) : trimChars (pushTriple t) = pushTriple t := by
  obtain ⟨first, others, hfirst, hws, -, -⟩ := pushSubject_head t.subject
  rw [trimChars_eq, trimStart_eq_self, trimEnd_pushTriple]
  rw [pushTriple, hfirst]
  intro c hc
  cases hc
  exact hws

/-- A line whose IRIs have no `>` comes back, with its literal as bytes. -/
theorem parseTriple_pushTriple {t : Triple} (h : Projected t)
    (hiris : ∀ i ∈ irisOf t, '>' ∉ i.value.toList) :
    parseTriple (pushTriple t) = .ok { t with object := received t.object } := by
  obtain ⟨init, hinit⟩ := pushObject_last h
  obtain ⟨first, others, hfirst, hws, -, -⟩ := pushSubject_head t.subject
  have htext := pushTriple_eq t
  have hlast : (pushTriple t).getLast? = some '.' := by rw [htext, List.getLast?_concat]
  have hinner : trimChars (pushTriple t).dropLast =
      pushSubject t.subject ++ ' ' :: (pushIri t.predicate ++ ' ' :: pushObject t.object) := by
    have hblank : (pushTriple t).dropLast = (pushSubject t.subject ++ ' ' ::
        (pushIri t.predicate ++ ' ' :: pushObject t.object)) ++ [' '] := by
      rw [htext, List.dropLast_concat]
      simp
    rw [hblank, trimChars_eq, trimStart_eq_self, trimEnd_append]
    · rw [hinit]
      intro c hc
      simp at hc
      cases hc
      simp [isWhitespace]
    · simp [isWhitespace]
    · rw [hfirst]
      intro c hc
      cases hc
      exact hws
  obtain ⟨subject, hsubject, hsubject'⟩ := parseTerm_pushSubject h
    (pushIri t.predicate ++ ' ' :: pushObject t.object) hiris
  obtain ⟨object, hobject, hobject'⟩ := parseTerm_pushObject h hiris
  have hpredicate : '>' ∉ t.predicate.value.toList := hiris _ (by simp [irisOf])
  have hskip : ∀ i : Iri, ∀ rest, trimStart (' ' :: (pushIri i ++ rest)) = pushIri i ++ rest := by
    intro i rest
    simp [trimStart, pushIri, isWhitespace]
  have hskip' : trimStart (' ' :: pushObject t.object) = pushObject t.object := by
    have hblank : trimStart (' ' :: pushObject t.object) = trimStart (pushObject t.object) := by
      simp [trimStart, isWhitespace]
    rw [hblank]
    apply trimStart_eq_self
    intro c hc
    cases hcase : t.object with
    | iri i =>
      rw [hcase] at hc
      cases hc
      simp [isWhitespace]
    | blank label => exact absurd hcase (h.object label)
    | literal lexical datatype language =>
      rw [hcase] at hc
      cases hc
      simp [isWhitespace]
  rw [parseTriple, trimEnd_pushTriple, if_pos hlast, hinner, parseTerms, hsubject]
  simp only [bind, Except.bind, hskip, parseTerm_pushIri _ hpredicate, Term.toPredicate, hskip',
    hobject, hsubject']
  rw [hobject']
  rfl

def Term.iris : Term → List Iri
  | .iri i => [i]
  | .blank _ => []
  | .literal _ datatype _ => [datatype]

/-- An IRI that one line can hold. -/
def OnLine (i : Iri) : Prop := '>' ∉ i.value.toList ∧ '\n' ∉ i.value.toList

/-- What follows a literal is the rest of the text. -/
theorem suffix_of_literalBody {cs : List Char} {r : List Char × List Char}
    (h : literalBody cs = .ok r) : r.2 <:+ cs := by
  induction hn : cs.length using Nat.strong_induction_on generalizing cs r with
  | h n ih =>
    cases cs with
    | nil =>
      rw [literalBody] at h
      cases h
    | cons c cs =>
      rw [literalBody_cons] at h
      rw [List.length_cons] at hn
      split at h
      · obtain ⟨⟨chars, rest⟩, hescape, h⟩ := bind_eq_ok.mp h
        obtain ⟨⟨lexical, rest'⟩, hbody, h⟩ := bind_eq_ok.mp h
        cases h
        have hsuffix := (suffix_of_readEscape hescape).trans (List.tail_suffix cs)
        have hlen := hsuffix.length_le
        simp only at hlen hsuffix
        exact ((ih rest.length (by omega) hbody rfl).trans hsuffix).trans (List.suffix_cons c cs)
      · split at h
        · cases h
          exact List.suffix_cons c cs
        · obtain ⟨⟨lexical, rest'⟩, hbody, h⟩ := bind_eq_ok.mp h
          cases h
          exact (ih cs.length (by omega) hbody rfl).trans (List.suffix_cons c cs)

theorem suffix_of_splitOnce {sep : Char} {cs : List Char} {parts : List Char × List Char}
    (h : splitOnce sep cs = some parts) : parts.2 <:+ cs := by
  rw [(splitOnce_some h).2]
  exact (List.suffix_cons sep parts.2).trans (List.suffix_append parts.1 _)

theorem suffix_of_stripPrefix {pre cs rest : List Char}
    (h : stripPrefix pre cs = some rest) : rest <:+ cs := by
  unfold stripPrefix at h
  split at h
  · cases h
    exact List.drop_suffix _ _
  · cases h

/-- An IRI cut off at the first `>` of a text without newlines. -/
theorem onLine_of_splitOnce {cs : List Char} {parts : List Char × List Char}
    (h : splitOnce '>' cs = some parts) (hline : '\n' ∉ cs) : OnLine ⟨.ofList parts.1⟩ := by
  obtain ⟨hclose, hcs⟩ := splitOnce_some h
  unfold OnLine
  rw [String.toList_ofList]
  refine ⟨hclose, ?_⟩
  intro hmem
  rw [hcs] at hline
  exact hline (List.mem_append_left _ hmem)

/-- A literal read from a line has its datatype on that line. -/
theorem parseLiteral_ok {cs rest : List Char} {term : Term}
    (h : parseLiteral cs = .ok (term, rest)) (hline : '\n' ∉ cs) :
    rest <:+ cs ∧ ∀ i ∈ term.iris, OnLine i := by
  obtain ⟨⟨lexical, rest₀⟩, hbody, h⟩ := bind_eq_ok.mp h
  have hsuffix := suffix_of_literalBody hbody
  simp only at h hsuffix
  split at h
  · next lang hlang =>
    cases h
    refine ⟨((List.dropWhile_suffix _).trans (suffix_of_stripPrefix hlang)).trans hsuffix, ?_⟩
    intro i hi
    rw [List.mem_singleton.mp hi]
    simp [OnLine, Turtle.langString]
  · split at h
    · next datatype hdatatype =>
      split at h
      · cases h
      · next body hopen =>
        have hbodySuffix : body <:+ cs := ((suffix_of_stripPrefix hopen).trans
          (List.dropWhile_suffix _)).trans ((suffix_of_stripPrefix hdatatype).trans hsuffix)
        split at h
        · cases h
        · next iri rest' hclose =>
          cases h
          refine ⟨(suffix_of_splitOnce hclose).trans hbodySuffix, ?_⟩
          intro i hi
          rw [List.mem_singleton.mp hi]
          exact onLine_of_splitOnce hclose fun hmem => hline (hbodySuffix.subset hmem)
    · cases h
      refine ⟨hsuffix, ?_⟩
      intro i hi
      rw [List.mem_singleton.mp hi]
      simp [OnLine, xsdString]

/-- A term read from a line has its IRIs on that line. -/
theorem parseTerm_ok {input rest : List Char} {term : Term}
    (h : parseTerm input = .ok (term, rest)) (hline : '\n' ∉ input) :
    rest <:+ input ∧ ∀ i ∈ term.iris, OnLine i := by
  unfold parseTerm at h
  split at h
  · cases h
  · next body =>
    rw [List.mem_cons, not_or] at hline
    split at h
    · cases h
    · next iri rest' hclose =>
      cases h
      refine ⟨(suffix_of_splitOnce hclose).trans (List.suffix_cons _ _), ?_⟩
      intro i hi
      rw [List.mem_singleton.mp hi]
      exact onLine_of_splitOnce hclose hline.2
  · next body =>
    cases h
    refine ⟨(List.dropWhile_suffix _).trans
      ((List.suffix_cons _ _).trans (List.suffix_cons _ _)), ?_⟩
    intro i hi
    cases hi
  · next body =>
    rw [List.mem_cons, not_or] at hline
    obtain ⟨hsuffix, hiris⟩ := parseLiteral_ok h hline.2
    exact ⟨hsuffix.trans (List.suffix_cons _ _), hiris⟩
  · cases h

/-- The IRIs that are read from a text without newlines fit on a line. -/
theorem parseTerms_ok {line : List Char} {t : Triple} (h : parseTerms line = .ok t)
    (hline : '\n' ∉ line) : ∀ i ∈ irisOf t, OnLine i := by
  obtain ⟨⟨subject, rest⟩, hsubject, h⟩ := bind_eq_ok.mp h
  obtain ⟨⟨predicate, rest'⟩, hpredicate, h⟩ := bind_eq_ok.mp h
  obtain ⟨iri, hiri, h⟩ := bind_eq_ok.mp h
  obtain ⟨⟨object, rest''⟩, hobject, h⟩ := bind_eq_ok.mp h
  obtain ⟨hsuffix, hsubjectIris⟩ := parseTerm_ok hsubject hline
  have hrest : '\n' ∉ trimStart rest := fun hmem =>
    hline (hsuffix.subset ((List.dropWhile_suffix _).subset hmem))
  obtain ⟨hsuffix', hpredicateIris⟩ := parseTerm_ok hpredicate hrest
  have hrest' : '\n' ∉ trimStart rest' := fun hmem =>
    hrest (hsuffix'.subset ((List.dropWhile_suffix _).subset hmem))
  obtain ⟨-, hobjectIris⟩ := parseTerm_ok hobject hrest'
  simp only at h
  split at h
  · obtain ⟨s, hs, h⟩ := bind_eq_ok.mp h
    cases h
    intro i hi
    simp only [irisOf, List.mem_append, List.mem_cons] at hi
    rcases hi with hi | rfl | hi
    · cases subject with
      | iri j =>
        cases hs
        exact hsubjectIris i hi
      | blank label =>
        cases hs
        cases hi
      | literal lexical datatype language => cases hs
    · cases predicate with
      | iri j =>
        cases hiri
        exact hpredicateIris i List.mem_cons_self
      | blank label => cases hiri
      | literal lexical datatype language => cases hiri
    · cases object with
      | iri j => exact hobjectIris i hi
      | blank label => cases hi
      | literal lexical datatype language => exact hobjectIris i hi
  · cases h

theorem mem_of_mem_trimEnd {cs : List Char} {c : Char} (h : c ∈ trimEnd cs) : c ∈ cs :=
  List.mem_reverse.mp ((List.dropWhile_suffix _).subset (List.mem_reverse.mp h))

theorem mem_of_mem_trimChars {cs : List Char} {c : Char} (h : c ∈ trimChars cs) : c ∈ cs :=
  (List.dropWhile_suffix _).subset (mem_of_mem_trimEnd h)

/-- A triple read from a line has its IRIs on that line. -/
theorem parseTriple_ok {line : List Char} {t : Triple} (h : parseTriple line = .ok t)
    (hline : '\n' ∉ line) : ∀ i ∈ irisOf t, OnLine i := by
  unfold parseTriple at h
  split at h
  · apply parseTerms_ok h
    intro hmem
    have hdrop := mem_of_mem_trimChars hmem
    exact hline (mem_of_mem_trimEnd (List.dropLast_subset _ hdrop))
  · cases h

/-- A triple is written on one line if its IRIs have no newlines. -/
theorem newline_not_mem_pushTriple {t : Triple} (h : Projected t)
    (hiris : ∀ i ∈ irisOf t, '\n' ∉ i.value.toList) : '\n' ∉ pushTriple t := by
  have hpush : ∀ i ∈ irisOf t, '\n' ∉ pushIri i := by
    intro i hi
    simpa [pushIri] using hiris i hi
  have hsubject : '\n' ∉ pushSubject t.subject := by
    cases hcase : t.subject with
    | iri i => exact hpush i (by simp [irisOf, hcase])
    | blank label =>
      have hlabel : '\n' ∉ label.toList := by
        intro hmem
        have hends := h.subject label hcase _ hmem
        simp [endsName, isWhitespace] at hends
      simpa [pushSubject] using hlabel
  have hobject : '\n' ∉ pushObject t.object := by
    cases hcase : t.object with
    | iri i => exact hpush i (by simp [irisOf, hcase])
    | blank label => exact absurd hcase (h.object label)
    | literal lexical datatype language =>
      cases h.language _ _ _ hcase
      have hescaped : ∀ c ∈ lexical.toList, '\n' ∉ escape c := by
        intro c _ hc
        rcases escape_cases c with ⟨heq, -, -, hne⟩ | ⟨e, heq, hne, -, -⟩
        · rw [heq] at hc
          exact hne (List.mem_singleton.mp hc).symm
        · rw [heq] at hc
          rcases List.mem_cons.mp hc with hback | he
          · revert hback
            decide
          · exact hne (List.mem_singleton.mp he).symm
      have hdatatype := hpush datatype (by simp [irisOf, hcase])
      simpa [pushObject] using ⟨hescaped, hdatatype⟩
  have hpredicate := hpush t.predicate (by simp [irisOf])
  simp [pushTriple, hsubject, hpredicate, hobject]

/-- A literal that comes back as it was is ASCII. -/
theorem received_eq_iff {t : Triple} :
    ({ t with object := received t.object } : Triple) = t ↔ ∀ c ∈ literalOf t, c.toNat < 128 := by
  obtain ⟨subject, predicate, object⟩ := t
  cases object with
  | iri i => simp [received, literalOf]
  | blank label => simp [received, literalOf]
  | literal lexical datatype language =>
    have htext : String.ofList (lexical.toList.flatMap bytesAsChars) = lexical ↔
        lexical.toList.flatMap bytesAsChars = lexical.toList := by
      rw [← String.toList_inj, String.toList_ofList]
    simp only [received, literalOf, Triple.mk.injEq, Object.literal.injEq, true_and, and_true,
      htext, flatMap_bytesAsChars_iff]

/-- The first line that a triple is written on is read as that triple exactly if the triple is
clean. -/
theorem parseTriple_firstLine_iff {t : Triple} (h : Projected t) :
    parseTriple (trimChars ((pushTriple t).takeWhile (· ≠ '\n'))) = .ok t ↔ Clean t := by
  have hwhole : (∀ i ∈ irisOf t, OnLine i) →
      parseTriple (trimChars ((pushTriple t).takeWhile (· ≠ '\n'))) =
        .ok { t with object := received t.object } := by
    intro hiris
    have hnewline := newline_not_mem_pushTriple h fun i hi => (hiris i hi).2
    have htake : (pushTriple t).takeWhile (· ≠ '\n') = pushTriple t := by
      rw [List.takeWhile_eq_self_iff]
      intro c hc
      exact decide_eq_true fun heq => hnewline (heq ▸ hc)
    rw [htake, trimChars_pushTriple]
    exact parseTriple_pushTriple h fun i hi => (hiris i hi).1
  constructor
  · intro hparse
    have hiris := parseTriple_ok hparse fun hmem => by
      have htake := List.mem_takeWhile_imp (mem_of_mem_trimChars hmem)
      simp at htake
    have heq := Except.ok.inj ((hwhole hiris).symm.trans hparse)
    exact ⟨hiris, received_eq_iff.mp heq⟩
  · intro hclean
    rw [hwhole hclean.iris, received_eq_iff.mpr hclean.literal]

/-- A document starts with the first line of its first triple. -/
theorem lines_document (t : Triple) (ts : List Triple) : ∃ others,
    lines (document (t :: ts)) = stripCr ((pushTriple t).takeWhile (· ≠ '\n')) :: others ∧
      ('\n' ∉ pushTriple t → others = lines (document ts)) := by
  have hdoc : document (t :: ts) = pushTriple t ++ '\n' :: document ts := by
    simp [document]
  have hfirst : '\n' ∉ (pushTriple t).takeWhile (· ≠ '\n') := by
    intro hmem
    have htake := List.mem_takeWhile_imp hmem
    simp at htake
  cases hrest : (pushTriple t).dropWhile (· ≠ '\n') with
  | nil =>
    have htake : (pushTriple t).takeWhile (· ≠ '\n') = pushTriple t := by
      have happend := List.takeWhile_append_dropWhile (p := (· ≠ '\n')) (l := pushTriple t)
      rwa [hrest, List.append_nil] at happend
    refine ⟨lines (document ts), ?_, fun _ => rfl⟩
    rw [htake] at hfirst ⊢
    rw [hdoc, lines_append _ hfirst]
  | cons c rest =>
    have hc : c = '\n' := by
      have hhead := List.head?_dropWhile_not (· ≠ '\n') (pushTriple t)
      rw [hrest] at hhead
      simpa using hhead
    have happend := List.takeWhile_append_dropWhile (p := (· ≠ '\n')) (l := pushTriple t)
    rw [hrest, hc] at happend
    refine ⟨lines (rest ++ '\n' :: document ts), ?_, ?_⟩
    · rw [hdoc]
      conv_lhs => rw [← happend]
      rw [List.append_assoc, List.cons_append, lines_append _ hfirst]
    · intro hnewline
      rw [← happend] at hnewline
      exact absurd (List.mem_append_right _ List.mem_cons_self) hnewline

/-- Written triples come back exactly if each of them is clean. -/
theorem parseLines_document_iff {ts : List Triple} (h : ∀ t ∈ ts, Projected t) (lineno : Nat) :
    parseLines lineno (lines (document ts)) = .ok ts ↔ ∀ t ∈ ts, Clean t := by
  induction ts generalizing lineno with
  | nil => simp [document, lines, linesFrom, parseLines]
  | cons t ts ih =>
    have ht := h t List.mem_cons_self
    have hts := ih (fun t' ht' => h t' (List.mem_cons_of_mem t ht')) (lineno + 1)
    obtain ⟨others, hlines, hothers⟩ := lines_document t ts
    obtain ⟨first, cs, hfirst, hws, hhash, hnewline⟩ := pushSubject_head t.subject
    have htake : (pushTriple t).takeWhile (· ≠ '\n') = first :: (cs ++ ' ' ::
        (pushIri t.predicate ++ ' ' :: (pushObject t.object ++ [' ', '.']))).takeWhile
          (· ≠ '\n') := by
      rw [pushTriple, hfirst, List.cons_append,
        List.takeWhile_cons_of_pos (by simpa using hnewline)]
    obtain ⟨cs', hstart⟩ : ∃ cs', trimChars ((pushTriple t).takeWhile (· ≠ '\n')) =
        first :: cs' := by
      rw [htake]
      exact trimChars_cons _ hws
    have hskip : ¬(trimChars (stripCr ((pushTriple t).takeWhile (· ≠ '\n'))) = [] ∨
        (trimChars (stripCr ((pushTriple t).takeWhile (· ≠ '\n')))).head? = some '#') := by
      rw [trimChars_stripCr, hstart]
      simp [hhash]
    rw [hlines, parseLines, if_neg hskip, trimChars_stripCr, List.forall_mem_cons,
      ← parseTriple_firstLine_iff ht, ← hts]
    cases hparse : parseTriple (trimChars ((pushTriple t).takeWhile (· ≠ '\n'))) with
    | error e => simp
    | ok t' =>
      by_cases htt : t' = t
      · subst htt
        have hclean := (parseTriple_firstLine_iff ht).mp hparse
        have hline := newline_not_mem_pushTriple ht fun i hi => (hclean.iris i hi).2
        rw [hothers hline]
        cases parseLines (lineno + 1) (lines (document ts)) with
        | error e => simp [Except.map]
        | ok read => simp [Except.map]
      · have hne : (Except.ok t' : Except LineError Triple) ≠ .ok t := by
          intro heq
          exact htt (Except.ok.inj heq)
        simp only [hne, false_and, iff_false]
        cases parseLines (lineno + 1) others with
        | error e => simp [Except.map]
        | ok read => simp [Except.map, htt]

theorem endsName_digit : ∀ n < 16, endsName (Hex.digit n) = false := by
  intro n hn
  interval_cases n <;> simp [Hex.digit, endsName, isWhitespace]

/-- An id is a name. -/
theorem endsName_toHex {kind : IdKind} (id : Id kind) :
    ∀ c ∈ id.toHex.toList, endsName c = false := by
  intro c hc
  rw [Id.toHex, Hex.encode, String.toList_ofList, List.mem_flatMap] at hc
  obtain ⟨b, -, hc⟩ := hc
  have hb := b.toNat_lt
  rcases List.mem_cons.mp hc with rfl | hc
  · exact endsName_digit _ (by omega)
  · rw [List.mem_singleton.mp hc]
    exact endsName_digit _ (by omega)

variable [SerdeJson] [RdfText]

/-- The terms of a projection: IRIs, nodes as subjects and values as objects. -/
theorem terms_of_mem_emitted {o : Ontology} {e : Emitted} (h : e ∈ o.emitted) :
    ((∃ i, e.triple.subject = .iri i) ∨ ∃ node, e.triple.subject = nodeSubject node) ∧
      ((∃ i, e.triple.object = .iri i) ∨ ∃ v : PropertyValue,
        v.toObject = some e.triple.object) := by
  simp only [Ontology.emitted, emitSchema, emitNodes, emitEdges, emitAxioms, List.mem_append,
    List.mem_flatMap, List.mem_filterMap, List.mem_map] at h
  rcases h with (((⟨kv, -, he⟩ | ⟨kv, -, he⟩) | ⟨node, -, he⟩) | ⟨edge, -, he⟩) | ⟨a, -, rfl⟩
  · simp only [emitNodeType, emitProperty, List.cons_append, List.mem_cons, List.mem_append,
      List.mem_map, List.mem_flatMap, List.not_mem_nil, or_false] at he
    rcases he with rfl | ⟨sup, -, rfl⟩ | ⟨prop, -, rfl | rfl | rfl⟩ <;>
      exact ⟨Or.inl ⟨_, rfl⟩, Or.inl ⟨_, rfl⟩⟩
  · simp only [emitEdgeType, List.cons_append, List.append_assoc, List.mem_cons, List.mem_append,
      List.mem_map] at he
    rcases he with rfl | he | ⟨inv, -, rfl⟩ | ⟨d, -, rfl⟩ | ⟨r, -, rfl⟩
    · exact ⟨Or.inl ⟨_, rfl⟩, Or.inl ⟨_, rfl⟩⟩
    · split at he
      · obtain rfl := List.mem_singleton.mp he
        exact ⟨Or.inl ⟨_, rfl⟩, Or.inl ⟨_, rfl⟩⟩
      · exact absurd he List.not_mem_nil
    · exact ⟨Or.inl ⟨_, rfl⟩, Or.inl ⟨_, rfl⟩⟩
    · exact ⟨Or.inl ⟨_, rfl⟩, Or.inl ⟨_, rfl⟩⟩
    · exact ⟨Or.inl ⟨_, rfl⟩, Or.inl ⟨_, rfl⟩⟩
  · simp only [emitNode, List.mem_append, List.mem_map, List.mem_filterMap,
      Option.map_eq_some_iff] at he
    rcases he with ⟨name, -, rfl⟩ | ⟨kv, -, object, hobject, rfl⟩
    · exact ⟨Or.inr ⟨node, rfl⟩, Or.inl ⟨_, rfl⟩⟩
    · exact ⟨Or.inr ⟨node, rfl⟩, Or.inr ⟨kv.2, hobject⟩⟩
  · obtain ⟨src, -, rfl⟩ := Option.map_eq_some_iff.mp he
    refine ⟨Or.inr ⟨src, rfl⟩, Or.inl ?_⟩
    simp only [nodeObject]
    split <;> exact ⟨_, rfl⟩
  · cases a.kind <;> exact ⟨Or.inl ⟨_, rfl⟩, Or.inl ⟨_, rfl⟩⟩

/-- The triples of an ontology are projected ones. -/
theorem projected_of_mem_toRdf {o : Ontology} {t : Triple} (h : t ∈ toRdf o) : Projected t := by
  obtain ⟨e, he, rfl⟩ := List.mem_map.mp h
  obtain ⟨hsubject, hobject⟩ := terms_of_mem_emitted he
  refine ⟨?_, fun label => object_ne_blank h, ?_⟩
  · intro label hlabel
    rcases hsubject with ⟨i, hi⟩ | ⟨node, hnode⟩
    · rw [hi] at hlabel
      cases hlabel
    · rw [hnode, nodeSubject] at hlabel
      split at hlabel
      · cases hlabel
      · cases hlabel
        exact endsName_toHex node.id
  · intro lexical datatype language hliteral
    rcases hobject with ⟨i, hi⟩ | ⟨v, hv⟩
    · rw [hi] at hliteral
      cases hliteral
    · rw [hliteral] at hv
      cases v <;> simp_all [PropertyValue.toObject]

/-- The document of an ontology is read to its projection. -/
def RoundTrips (o : Ontology) : Prop := parse (write o) = .ok (toRdf o)

/-- An ontology survives N-Triples exactly if every projected triple has an ASCII literal and
IRIs that fit on a line. -/
theorem roundTrips_iff_clean (o : Ontology) : RoundTrips o ↔ ∀ t ∈ toRdf o, Clean t := by
  unfold RoundTrips
  rw [parse, write, String.toList_ofList]
  exact parseLines_document_iff (fun t ht => projected_of_mem_toRdf ht) 1

/-- A café. -/
private def cafe : Ontology :=
  Ontology.empty.upsertNode ⟨.filled 1, some ⟨"https://example.org/cafe"⟩, ["Organization"],
    (∅ : BTreeMap String PropertyValue).insert "name" (.string "Café")⟩

omit [SerdeJson] [RdfText] in
/-- The two bytes of its last letter come back as two characters. -/
theorem cafe_not_roundTrips : ¬@RoundTrips .plain .plain cafe := by
  let _ := SerdeJson.plain
  let _ := RdfText.plain
  intro h
  unfold RoundTrips at h
  rw [parse, write, String.toList_ofList] at h
  have hclean := (parseLines_document_iff (fun t ht => projected_of_mem_toRdf ht) 1).mp h
  have hmem := @property_mem_toRdf _ _ cafe _ "name" (.string "Café") _
    (BTreeMap.mem_vals_singleton.mpr rfl) (BTreeMap.get_insert ∅ "name" "name" _) rfl
  have hascii := (hclean _ hmem).literal 'é' (by simp [literalOf])
  revert hascii
  decide

end NTriples

end AtomrOntology
