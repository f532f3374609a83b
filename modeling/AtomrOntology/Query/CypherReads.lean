import AtomrOntology.Query.CypherTokens

/-!
# The parser reads the grammar

What the Cypher parser returns for the printed parts of a query and for the whole of it. Each
part is recognized by its first token, and what may follow it starts differently.
-/

namespace AtomrOntology

namespace Cypher

open Sparql (isIdentStart tryKeyword)

variable {ts us : List Token} {text : List Char}

def mapEntries (f : String → String) (entries : List (Ident × Value)) : List (Ident × Value) :=
  entries.map fun entry => (entry.1, entry.2.map f)

/-- What a map becomes when more entries are read. -/
def insertEntries (m : BTreeMap String PropertyValue) (entries : List (Ident × Value)) :
    BTreeMap String PropertyValue :=
  entries.foldl (fun m entry => m.insert entry.1.text entry.2.denote) m

/-- Printed entries are read into a map, up to the closing brace. -/
theorem parseEntries_printed {bound : Nat} {into : BTreeMap String PropertyValue}
    {entry : Ident × Value} {entries : List (Ident × Value)} (hbound : entries.length < bound)
    (h : lexis.Printed (entriesTokens (entry :: entries) ++ .mark .rightBrace :: ts) text) :
    ∃ rest, parseEntries bound into text =
      .ok (insertEntries into (mapEntries misread (entry :: entries)), rest) ∧
        lexis.Printed ts rest := by
  induction entries generalizing bound into entry text with
  | nil =>
    obtain ⟨bound, rfl⟩ : ∃ k, bound = k + 1 := ⟨bound - 1, by omega⟩
    simp only [entriesTokens, entryTokens, List.cons_append] at h
    obtain ⟨rest, hident, h⟩ := parseIdent_printed h
    obtain ⟨rest, hcolon, h⟩ := expectChar_printed (c := ':') rfl h
    obtain ⟨rest, hvalue, h⟩ := parseValue_printed h
    obtain ⟨rest, hclose, h⟩ := mark_next h
    refine ⟨rest, ?_, h⟩
    simp only [parseEntries, hident, hcolon, hvalue, ok_bind, hclose, Mark.chars,
      List.singleton_append]
    rfl
  | cons next entries ih =>
    obtain ⟨bound, rfl⟩ : ∃ k, bound = k + 1 := ⟨bound - 1, by omega⟩
    rw [List.length_cons] at hbound
    simp only [entriesTokens, entryTokens, List.cons_append, List.append_assoc] at h
    obtain ⟨rest, hident, h⟩ := parseIdent_printed h
    obtain ⟨rest, hcolon, h⟩ := expectChar_printed (c := ':') rfl h
    obtain ⟨rest, hvalue, h⟩ := parseValue_printed h
    obtain ⟨rest, hcomma, h⟩ := mark_next h
    obtain ⟨rest', hentries, h⟩ :=
      @ih _ bound (into.insert entry.1.text (entry.2.map misread).denote)
      next (by omega) h
    refine ⟨rest', ?_, h⟩
    simp only [parseEntries, hident, hcolon, hvalue, ok_bind, hcomma, Mark.chars,
      List.singleton_append, hentries]
    rfl

/-- Every entry takes a token, so the tokens are enough as fuel. -/
theorem length_le_entriesTokens (entries : List (Ident × Value)) :
    entries.length ≤ (entriesTokens entries).length := by
  induction entries with
  | nil => exact le_rfl
  | cons entry entries ih =>
    cases entries with
    | nil => simp [entriesTokens, entryTokens]
    | cons next entries =>
      simp only [entriesTokens, entryTokens, List.length_append, List.length_cons] at ih ⊢
      omega

theorem entriesTokens_cons (entry : Ident × Value) (entries : List (Ident × Value)) :
    ∃ more, entriesTokens (entry :: entries) = .name entry.1 :: more := by
  cases entries with
  | nil => exact ⟨_, rfl⟩
  | cons next entries => exact ⟨_, rfl⟩

/-- A printed property map is read, with its strings byte by byte. -/
theorem parsePropMap_printed {entries : List (Ident × Value)}
    (h : lexis.Printed (propMapTokens entries ++ ts) text) :
    ∃ rest, parsePropMap text = .ok (denoteEntries (mapEntries misread entries), rest) ∧
      lexis.Printed ts rest := by
  simp only [propMapTokens, List.cons_append, List.append_assoc, List.nil_append] at h
  obtain ⟨rest, hopen, h⟩ := expectChar_printed (c := '\x7b') rfl h
  rw [parsePropMap, hopen, ok_bind]
  cases entries with
  | nil =>
    obtain ⟨rest, hclose, h⟩ := mark_next h
    refine ⟨rest, ?_, h⟩
    simp only [hclose, Mark.chars, List.singleton_append]
    rfl
  | cons entry entries =>
    have hskipped := skip_printed h
    have hlen := hskipped.length_le
    have hle := length_le_entriesTokens (entry :: entries)
    rw [List.length_append] at hlen
    rw [List.length_cons] at hle
    obtain ⟨rest', hentries, h'⟩ :=
      @parseEntries_printed _ _ ((skipWs rest).length + 1) ∅ entry entries (by omega) hskipped
    obtain ⟨more, hmore⟩ := entriesTokens_cons entry entries
    rw [hmore] at h
    obtain ⟨c, cs, after, hskip, -, hc, -⟩ := name_next h
    refine ⟨rest', ?_, h'⟩
    split
    · next heq =>
      rw [hskip] at heq
      obtain ⟨rfl, -⟩ := List.cons.inj heq
      exact absurd hc (by decide)
    · exact hentries

/-- So is an optional one. -/
theorem parseOptPropMap_printed {properties : Option (List (Ident × Value))}
    (hts : lexis.Starts (· ≠ '\x7b') ts)
    (h : lexis.Printed (optional propMapTokens properties ++ ts) text) :
    ∃ rest, parseOptPropMap text =
      .ok (denoteProperties (properties.map (mapEntries misread)), rest) ∧
      lexis.Printed ts rest := by
  have hskipped := skip_printed h
  cases properties with
  | none =>
    refine ⟨skipWs text, ?_, hskipped⟩
    rw [parseOptPropMap]
    split
    · next heq => exact absurd rfl (h.starts hts _ (congrArg List.head? heq))
    · rfl
  | some entries =>
    obtain ⟨rest, hopen, -⟩ := mark_next (m := .leftBrace) h
    obtain ⟨rest', hmap, h'⟩ := parsePropMap_printed hskipped
    rw [hopen] at hmap
    refine ⟨rest', ?_, h'⟩
    rw [parseOptPropMap, hopen]
    exact hmap

/-- An optional name is read, if what follows starts with none. -/
theorem parseOptIdent_printed {bind : Option Ident} (hts : lexis.Starts (isIdentStart · = false) ts)
    (h : lexis.Printed (optional identTokens bind ++ ts) text) :
    ∃ rest, parseOptIdent text = .ok (bind.map Ident.text, rest) ∧ lexis.Printed ts rest := by
  have hskipped := skip_printed h
  cases bind with
  | none =>
    refine ⟨skipWs text, ?_, hskipped⟩
    rw [parseOptIdent]
    have hstart := h.starts hts
    rw [show text.dropWhile lexis.blank = skipWs text from rfl] at hstart
    cases hskip : skipWs text with
    | nil => rfl
    | cons c cs =>
      rw [hskip] at hstart
      have hc := hstart c rfl
      simp only [hc, Bool.false_eq_true, if_false]
      rfl
  | some i =>
    obtain ⟨c, cs, rest, hskip, -, hc, -⟩ := name_next h
    obtain ⟨rest', hident, h'⟩ := parseIdent_printed hskipped
    rw [hskip] at hident
    refine ⟨rest', ?_, h'⟩
    rw [parseOptIdent, hskip]
    simp only [List.cons_append] at hident ⊢
    simp only [hc, if_true, hident, ok_bind]
    rfl

/-- Printed labels are read one after another. -/
theorem parseLabels_printed {bound : Nat} {labels : List Ident} (hbound : labels.length ≤ bound)
    (hts : lexis.Starts (· ≠ ':') ts)
    (h : lexis.Printed (labels.flatMap labelTokens ++ ts) text) :
    ∃ rest, parseLabels bound text = .ok (labels.map Ident.text, rest) ∧ lexis.Printed ts rest := by
  induction labels generalizing bound text with
  | nil =>
    refine ⟨skipWs text, ?_, skip_printed h⟩
    cases bound with
    | zero => rfl
    | succ bound =>
      rw [parseLabels]
      split
      · next heq => exact absurd rfl (h.starts hts _ (congrArg List.head? heq))
      · rfl
  | cons label labels ih =>
    obtain ⟨bound, rfl⟩ : ∃ k, bound = k + 1 := ⟨bound - 1, by simp at hbound; omega⟩
    rw [List.length_cons] at hbound
    simp only [List.flatMap_cons, labelTokens, List.cons_append, List.nil_append] at h
    obtain ⟨rest, hcolon, h⟩ := mark_next h
    obtain ⟨rest, hident, h⟩ := parseIdent_printed h
    obtain ⟨rest', hlabels, h⟩ := @ih _ bound (by omega) h
    refine ⟨rest', ?_, h⟩
    rw [parseLabels, hcolon]
    simp only [Mark.chars, List.singleton_append, hident, ok_bind, hlabels]
    rfl

def Node.map (f : String → String) (n : Node) : Node :=
  { n with properties := n.properties.map (mapEntries f) }

/-- A printed node pattern is read as what it denotes. -/
theorem parseNodePattern_printed {n : Node} (h : lexis.Printed (n.tokens ++ ts) text) :
    ∃ rest, parseNodePattern text = .ok ((n.map misread).denote, rest) ∧ lexis.Printed ts rest := by
  simp only [Node.tokens, List.cons_append, List.append_assoc, List.nil_append] at h
  obtain ⟨rest, hopen, h⟩ := expectChar_printed (c := '(') rfl h
  have hclose : ∀ P : Char → Prop, P ')' → lexis.Starts P (.mark .rightParen :: ts) :=
    fun P hP => starts_mark (by simpa [Mark.chars] using hP)
  have hmap : ∀ P : Char → Prop, P '\x7b' → lexis.Starts P (optional propMapTokens n.properties) :=
    fun P hP => starts_optional _ fun _ => starts_mark (by simpa [Mark.chars] using hP)
  have hlabel : ∀ P : Char → Prop, P ':' → lexis.Starts P (n.labels.flatMap labelTokens) :=
    fun P hP => starts_flatMap _ fun _ => starts_mark (by simpa [Mark.chars] using hP)
  obtain ⟨rest, hbind, h⟩ := parseOptIdent_printed
    ((hlabel _ (by decide)).append ((hmap _ (by decide)).append (hclose _ (by decide)))) h
  obtain ⟨rest', hlabels, h⟩ :=
    parseLabels_printed (h.length_parts_le fun _ => List.cons_ne_nil _ _)
    ((hmap _ (by decide)).append (hclose _ (by decide))) h
  obtain ⟨rest'', hprops, h⟩ := parseOptPropMap_printed (hclose _ (by decide)) h
  obtain ⟨after, hend, h⟩ := expectChar_printed (c := ')') rfl h
  refine ⟨after, ?_, h⟩
  simp only [parseNodePattern, hopen, hbind, hlabels, hprops, hend, ok_bind]
  rfl

/-- An optional label is read. -/
theorem parseOptLabel_printed {label : Option Ident} (hts : lexis.Starts (· ≠ ':') ts)
    (h : lexis.Printed (optional labelTokens label ++ ts) text) :
    ∃ rest, parseOptLabel text = .ok (label.map Ident.text, rest) ∧ lexis.Printed ts rest := by
  cases label with
  | none =>
    refine ⟨skipWs text, ?_, skip_printed h⟩
    rw [parseOptLabel]
    split
    · next heq => exact absurd rfl (h.starts hts _ (congrArg List.head? heq))
    · rfl
  | some label =>
    obtain ⟨rest, hcolon, h⟩ := mark_next (m := .colon) h
    obtain ⟨rest', hident, h⟩ := parseIdent_printed h
    refine ⟨rest', ?_, h⟩
    rw [parseOptLabel, hcolon]
    simp only [Mark.chars, List.singleton_append, hident, ok_bind]
    rfl

/-- The bounds are in order, also where the lower one is not written. -/
def VarLen.InOrder : VarLen → Prop
  | .atMost n => 1 ≤ n
  | .between m n => m ≤ n
  | _ => True

private theorem le_max (m : UInt64) : m ≤ .ofNat (2 ^ 64 - 1) := by
  have hmax : (UInt64.ofNat (2 ^ 64 - 1)).toNat = 2 ^ 64 - 1 := by decide
  have hlt := m.toNat_lt
  rw [UInt64.le_iff_toNat_le, hmax]
  omega

/-- Bounds in order pass the check of the parser. -/
theorem VarLen.InOrder.not_lt {v : VarLen} (h : v.InOrder) : ¬v.denote.max < v.denote.min := by
  rw [UInt64.not_lt]
  cases v with
  | any => exact le_max 1
  | exactly m => exact UInt64.le_refl m
  | atLeast m => exact le_max m
  | atMost n => exact h
  | between m n => exact h

/-- What follows a repetition cannot be taken for a part of it. -/
def AfterBounds (c : Char) : Prop := isAsciiDigit c = false ∧ c ≠ '.'

/-- A printed number starts with a digit. -/
theorem starts_digit {n : UInt64} (h : lexis.Printed (.natural n :: ts) text) :
    (skipWs text).head?.any isAsciiDigit = true := by
  obtain ⟨digits, rest, hskip, hd, -⟩ := natural_next h
  obtain ⟨c, cs, rfl, hc⟩ := hd.cons
  rw [hskip]
  exact hc

/-- What starts without a digit does so after blanks. -/
theorem starts_no_digit (hts : lexis.Starts (isAsciiDigit · = false) ts)
    (h : lexis.Printed ts text) : (skipWs text).head?.any isAsciiDigit = false := by
  have hstart := h.starts hts
  rw [show text.dropWhile lexis.blank = skipWs text from rfl] at hstart
  cases hskip : skipWs text with
  | nil => rfl
  | cons c cs =>
    rw [hskip] at hstart
    exact hstart c rfl

/-- A printed upper bound is read. -/
theorem parseUpper_natural {n : UInt64} (h : lexis.Printed (.natural n :: ts) text) :
    ∃ rest, parseUpper text = .ok (n, rest) ∧ lexis.Printed ts rest := by
  obtain ⟨rest, hparse, hrest⟩ := parseUint_printed (skip_printed h)
  exact ⟨rest, by rw [parseUpper, if_pos (starts_digit h), hparse], hrest⟩

/-- A missing upper bound is the greatest number. -/
theorem parseUpper_none (hts : lexis.Starts (isAsciiDigit · = false) ts)
    (h : lexis.Printed ts text) :
    ∃ rest, parseUpper text = .ok (.ofNat (2 ^ 64 - 1), rest) ∧ lexis.Printed ts rest := by
  refine ⟨skipWs text, ?_, skip_printed h⟩
  rw [parseUpper, if_neg (by rw [starts_no_digit hts h]; decide)]

/-- The bounds of a repetition without its star. -/
def VarLen.boundsTokens : VarLen → List Token
  | .any => []
  | .exactly m => [.natural m]
  | .atLeast m => [.natural m, .mark .dots]
  | .atMost n => [.mark .dots, .natural n]
  | .between m n => [.natural m, .mark .dots, .natural n]

/-- Bounds follow a star. -/
theorem VarLen.tokens_eq (v : VarLen) : v.tokens = .mark .star :: v.boundsTokens := by
  cases v <;> rfl

/-- The bounds as they are read, in order or not. -/
theorem parseBounds_printed {v : VarLen} (hts : lexis.Starts AfterBounds ts)
    (h : lexis.Printed (v.boundsTokens ++ ts) text) :
    ∃ rest, parseBounds text = (if v.denote.max < v.denote.min then
      .error (.emptyRange v.denote.max v.denote.min) else .ok (v.denote, rest)) ∧
        lexis.Printed ts rest := by
  have hdigit : lexis.Starts (isAsciiDigit · = false) ts := fun t ht c cs hs => (hts t ht c cs hs).1
  have hdot : lexis.Starts (· ≠ '.') ts := fun t ht c cs hs => (hts t ht c cs hs).2
  have hskipped := skip_printed h
  cases v with
  | any =>
    have hrest := skip_printed hskipped
    refine ⟨skipWs (skipWs text), ?_, hrest⟩
    have hno := starts_no_digit hdigit h
    simp only [parseBounds, hno, Bool.false_eq_true, if_false, ok_bind, pure, Except.pure]
    split
    · next heq => exact absurd rfl (hskipped.starts hdot _ (congrArg List.head? heq))
    · rfl
  | exactly m =>
    obtain ⟨rest, hlower, hrest⟩ := parseUint_printed hskipped
    refine ⟨skipWs rest, ?_, skip_printed hrest⟩
    simp only [parseBounds, starts_digit h, if_true, hlower, ok_bind, pure, Except.pure]
    split
    · next heq => exact absurd rfl (hrest.starts hdot _ (congrArg List.head? heq))
    · rfl
  | atLeast m =>
    obtain ⟨rest, hlower, hrest⟩ := parseUint_printed hskipped
    obtain ⟨rest', hdots, hrest⟩ := mark_next hrest
    obtain ⟨after, hupper, hrest⟩ := parseUpper_none hdigit hrest
    refine ⟨after, ?_, hrest⟩
    simp only [parseBounds, starts_digit h, if_true, hlower, ok_bind, pure, Except.pure, hdots,
      Mark.chars, List.cons_append, List.nil_append, hupper]
    rfl
  | atMost n =>
    obtain ⟨rest, hdots, hrest⟩ := mark_next hskipped
    obtain ⟨after, hupper, hrest⟩ := parseUpper_natural hrest
    have hmark : lexis.Starts (isAsciiDigit · = false) (.mark .dots :: .natural n :: ts) :=
      starts_mark (by simp [Mark.chars]; decide)
    have hno := starts_no_digit hmark h
    refine ⟨after, ?_, hrest⟩
    simp only [parseBounds, hno, Bool.false_eq_true, if_false, ok_bind, pure, Except.pure, hdots,
      Mark.chars, List.cons_append, List.nil_append, hupper]
    rfl
  | between m n =>
    obtain ⟨rest, hlower, hrest⟩ := parseUint_printed hskipped
    obtain ⟨rest', hdots, hrest⟩ := mark_next hrest
    obtain ⟨after, hupper, hrest⟩ := parseUpper_natural hrest
    refine ⟨after, ?_, hrest⟩
    simp only [parseBounds, starts_digit h, if_true, hlower, ok_bind, pure, Except.pure, hdots,
      Mark.chars, List.cons_append, List.nil_append, hupper]
    rfl

/-- Optional bounds are read, if they are in order. -/
theorem parseOptRepeat_printed {varLen : Option VarLen} (hv : ∀ v ∈ varLen, v.InOrder)
    (hts : lexis.Starts (fun c => AfterBounds c ∧ c ≠ '*') ts)
    (h : lexis.Printed (optional VarLen.tokens varLen ++ ts) text) :
    ∃ rest, parseOptRepeat text = .ok (varLen.map VarLen.denote, rest) ∧ lexis.Printed ts rest := by
  cases varLen with
  | none =>
    refine ⟨skipWs text, ?_, skip_printed h⟩
    have hstar : lexis.Starts (· ≠ '*') ts := fun t ht c cs hs => (hts t ht c cs hs).2
    rw [parseOptRepeat]
    split
    · next heq => exact absurd rfl (h.starts hstar _ (congrArg List.head? heq))
    · rfl
  | some v =>
    have hbounds : lexis.Starts AfterBounds ts := fun t ht c cs hs => (hts t ht c cs hs).1
    simp only [optional, v.tokens_eq, List.cons_append] at h
    obtain ⟨rest, hstar, h⟩ := mark_next h
    obtain ⟨rest', hparse, h⟩ := parseBounds_printed hbounds h
    rw [if_neg (hv v rfl).not_lt] at hparse
    refine ⟨rest', ?_, h⟩
    rw [parseOptRepeat, hstar]
    simp only [Mark.chars, List.singleton_append, hparse, ok_bind]
    rfl

def EdgeBody.map (f : String → String) (b : EdgeBody) : EdgeBody :=
  { b with properties := b.properties.map (mapEntries f) }

/-- A printed edge body is read, and a missing one fits every edge. -/
theorem parseEdgeBody_printed {body : Option EdgeBody}
    (hv : ∀ b ∈ body, ∀ v ∈ b.varLen, v.InOrder) (hts : lexis.Starts (· ≠ '[') ts)
    (h : lexis.Printed (optional EdgeBody.tokens body ++ ts) text) :
    ∃ rest, parseEdgeBody text =
      .ok (((body.map (EdgeBody.map misread)).map EdgeBody.denote).getD .any, rest) ∧
        lexis.Printed ts rest := by
  cases body with
  | none =>
    refine ⟨skipWs text, ?_, skip_printed h⟩
    rw [parseEdgeBody]
    split
    · next heq => exact absurd rfl (h.starts hts _ (congrArg List.head? heq))
    · rfl
  | some b =>
    simp only [optional, EdgeBody.tokens, List.cons_append, List.append_assoc, List.nil_append] at h
    have hclose : ∀ P : Char → Prop, P ']' → lexis.Starts P (.mark .rightBracket :: ts) :=
      fun P hP => starts_mark (by simpa [Mark.chars] using hP)
    have hmap : ∀ P : Char → Prop, P '\x7b' → P ']' → lexis.Starts P
        (optional propMapTokens b.properties ++ .mark .rightBracket :: ts) := by
      intro P hP hend
      refine Lexis.Starts.append (starts_optional _ fun _ => ?_) (hclose P hend)
      exact starts_mark (by simpa [Mark.chars] using hP)
    have hrange : ∀ P : Char → Prop, P '*' → P '\x7b' → P ']' → lexis.Starts P
        (optional VarLen.tokens b.varLen ++
          (optional propMapTokens b.properties ++ .mark .rightBracket :: ts)) := by
      intro P hstar hP hend
      refine Lexis.Starts.append (starts_optional _ fun v => ?_) (hmap P hP hend)
      rw [v.tokens_eq]
      exact starts_mark (by simpa [Mark.chars] using hstar)
    have hlabel : ∀ P : Char → Prop, P ':' → lexis.Starts P (optional labelTokens b.label) :=
      fun P hP => starts_optional _ fun _ => starts_mark (by simpa [Mark.chars] using hP)
    obtain ⟨rest, hopen, h⟩ := mark_next h
    obtain ⟨rest₁, hbind, h⟩ := parseOptIdent_printed
      ((hlabel _ (by decide)).append (hrange _ (by decide) (by decide) (by decide))) h
    obtain ⟨rest₂, hlab, h⟩ := parseOptLabel_printed
      (hrange _ (by decide) (by decide) (by decide)) h
    obtain ⟨rest₃, hrep, h⟩ := parseOptRepeat_printed (hv b rfl)
      (hmap _ ⟨⟨by decide, by decide⟩, by decide⟩ ⟨⟨by decide, by decide⟩, by decide⟩) h
    obtain ⟨rest₄, hprops, h⟩ := parseOptPropMap_printed (hclose _ (by decide)) h
    obtain ⟨rest₅, hend, h⟩ := expectChar_printed (c := ']') rfl h
    refine ⟨rest₅, ?_, h⟩
    rw [parseEdgeBody, hopen]
    simp only [Mark.chars, List.singleton_append, hbind, hlab, hrep, hprops, hend, ok_bind]
    rfl

def Hop.map (f : String → String) (h : Hop) : Hop :=
  { h with body := h.body.map (EdgeBody.map f), target := h.target.map f }

/-- The dash after which an arrow head may follow directly. -/
theorem dash_next {m : Mark} {cs : List Char} (hm : m.chars = '-' :: cs)
    (h : lexis.Printed (.mark m :: ts) text) :
    ∃ rest, expectChar '-' text = .ok (cs ++ rest) ∧ lexis.Printed ts rest := by
  obtain ⟨rest, hskip, hrest⟩ := mark_next h
  rw [hm, List.cons_append] at hskip
  exact ⟨rest, by simp only [expectChar, hskip, if_true], hrest⟩

/-- An arrow without a head is followed by a node, which does not start like one. -/
theorem no_head {n : Node} (h : lexis.Printed (n.tokens ++ ts) text) :
    ∀ c ∈ text.head?, c ≠ '>' := by
  intro c hc
  have hstarts : lexis.Starts (· ≠ '>') (n.tokens ++ ts) := starts_mark (by simp [Mark.chars])
  rcases h.head hstarts c hc with hblank | hne
  · rintro rfl
    exact absurd hblank (by decide)
  · exact hne

/-- A printed hop is read as what it denotes. -/
theorem parseEdgeAndNode_printed {hop : Hop} (hv : ∀ b ∈ hop.body, ∀ v ∈ b.varLen, v.InOrder)
    (h : lexis.Printed (hop.tokens ++ ts) text) :
    ∃ rest, parseEdgeAndNode text = .ok ((hop.map misread).denote, rest) ∧
      lexis.Printed ts rest := by
  obtain ⟨arrow, body, target⟩ := hop
  simp only [Hop.tokens, List.cons_append, List.append_assoc] at h
  obtain ⟨rest, hfirst, h₁⟩ := mark_next h
  have hdash : ∀ P : Char → Prop, P '-' → lexis.Starts P
      (.mark arrow.marks.2 :: (target.tokens ++ ts)) := by
    intro P hP
    cases arrow <;> exact starts_mark (by simpa [Arrow.marks, Mark.chars] using hP)
  obtain ⟨rest₁, hbody, h₂⟩ := parseEdgeBody_printed hv (hdash _ (by decide)) h₁
  have hforward : ∀ cs, skipWs text = '-' :: cs → parseBack text = (false, '-' :: cs) := by
    intro cs hcs
    rw [parseBack, hcs]
    rfl
  have hopen : ∀ cs, expectChar '-' ('-' :: cs) = .ok cs := fun cs => rfl
  have hplain : ∀ cs, lexis.Printed (target.tokens ++ ts) cs → parseHead cs = (false, cs) := by
    intro cs hcs
    rw [parseHead]
    rintro rest rfl
    exact absurd rfl (no_head hcs '>' rfl)
  cases arrow with
  | right =>
    obtain ⟨rest₂, hclose, h₃⟩ := dash_next rfl h₂
    obtain ⟨rest₃, htarget, h₄⟩ := parseNodePattern_printed h₃
    refine ⟨rest₃, ?_, h₄⟩
    have hhead : parseHead ('>' :: rest₂) = (true, rest₂) := rfl
    simp only [parseEdgeAndNode, hforward rest hfirst, hopen, ok_bind, hbody, hclose,
      List.singleton_append, hhead, htarget, Bool.false_and, Bool.false_eq_true, if_false]
    rfl
  | left =>
    obtain ⟨rest₂, hclose, h₃⟩ := dash_next rfl h₂
    obtain ⟨rest₃, htarget, h₄⟩ := parseNodePattern_printed h₃
    refine ⟨rest₃, ?_, h₄⟩
    have hback : parseBack text = (true, '-' :: rest) := by
      rw [parseBack, hfirst]
      rfl
    simp only [parseEdgeAndNode, hback, hopen, ok_bind, hbody, hclose, List.nil_append,
      hplain rest₂ h₃, htarget, Bool.and_false, Bool.false_eq_true, if_false]
    rfl
  | plain =>
    obtain ⟨rest₂, hclose, h₃⟩ := dash_next rfl h₂
    obtain ⟨rest₃, htarget, h₄⟩ := parseNodePattern_printed h₃
    refine ⟨rest₃, ?_, h₄⟩
    simp only [parseEdgeAndNode, hforward rest hfirst, hopen, ok_bind, hbody, hclose,
      List.nil_append, hplain rest₂ h₃, htarget, Bool.false_and, Bool.false_eq_true, if_false]
    rfl

/-- Printed hops are read one after another. -/
theorem parseSteps_printed {bound : Nat} {hops : List Hop} (hbound : hops.length ≤ bound)
    (hv : ∀ hop ∈ hops, ∀ b ∈ hop.body, ∀ v ∈ b.varLen, v.InOrder)
    (hts : lexis.Starts (fun c => c ≠ '-' ∧ c ≠ '<') ts)
    (h : lexis.Printed (hops.flatMap Hop.tokens ++ ts) text) :
    ∃ rest, parseSteps bound text = .ok ((hops.map (Hop.map misread)).map Hop.denote, rest) ∧
      lexis.Printed ts rest := by
  induction hops generalizing bound text with
  | nil =>
    refine ⟨skipWs text, ?_, skip_printed h⟩
    cases bound with
    | zero => rfl
    | succ bound =>
      have hstart : ¬((skipWs text).head? = some '-' ∨ (skipWs text).head? = some '<') := by
        rintro (heq | heq)
        · exact (h.starts hts _ heq).1 rfl
        · exact (h.starts hts _ heq).2 rfl
      simp only [parseSteps, if_neg hstart]
      rfl
  | cons hop hops ih =>
    obtain ⟨bound, rfl⟩ : ∃ k, bound = k + 1 := ⟨bound - 1, by simp at hbound; omega⟩
    rw [List.length_cons] at hbound
    rw [List.flatMap_cons, List.append_assoc] at h
    have hstart : (skipWs text).head? = some '-' ∨ (skipWs text).head? = some '<' := by
      obtain ⟨arrow, body, target⟩ := hop
      obtain ⟨rest, hfirst, -⟩ := mark_next h
      rw [hfirst]
      cases arrow
      · exact Or.inl rfl
      · exact Or.inr rfl
      · exact Or.inl rfl
    obtain ⟨rest, hhop, h⟩ := parseEdgeAndNode_printed (hv hop List.mem_cons_self) (skip_printed h)
    obtain ⟨rest', hhops, h⟩ := @ih _ bound (by omega)
      (fun hop' hmem => hv hop' (List.mem_cons_of_mem hop hmem)) h
    refine ⟨rest', ?_, h⟩
    simp only [parseSteps, if_pos hstart, hhop, ok_bind, hhops]
    rfl

def Negation.map (f : String → String) : Negation → Negation
  | .node n => .node (n.map f)
  | .inline bind labels => .inline bind labels

/-- A negated pattern with its name. -/
def Negation.pattern : Negation → NodePattern
  | .node n => n.denote
  | .inline bind labels =>
    { NodePattern.any with bind := some bind.text, types := labels.map Ident.text }

/-- A negated pattern without the keywords. -/
def Negation.patternTokens : Negation → List Token
  | .node n => n.tokens
  | .inline bind labels => .name bind :: labels.flatMap labelTokens

/-- A negation starts with its two keywords. -/
theorem Negation.tokens_eq (neg : Negation) :
    neg.tokens = .keyword .where :: .keyword .not :: neg.patternTokens := by
  cases neg <;> rfl

/-- A printed negated pattern is read. -/
theorem parseNegated_printed {neg : Negation} (hts : lexis.Starts (· ≠ ':') ts)
    (h : lexis.Printed (neg.patternTokens ++ ts) text) :
    ∃ rest, parseNegated text = .ok ((neg.map misread).pattern, rest) ∧ lexis.Printed ts rest := by
  have hskipped := skip_printed h
  cases neg with
  | node n =>
    obtain ⟨rest, hopen, -⟩ := mark_next (m := .leftParen) h
    obtain ⟨rest', hnode, h'⟩ := parseNodePattern_printed hskipped
    rw [hopen] at hnode
    refine ⟨rest', ?_, h'⟩
    rw [parseNegated, hopen]
    exact hnode
  | inline bind labels =>
    obtain ⟨c, cs, after, hskip, -, hc, -⟩ := name_next h
    obtain ⟨rest, hident, h'⟩ := parseIdent_printed hskipped
    obtain ⟨rest', hlabels, h'⟩ := parseLabels_printed
      (h'.length_parts_le fun _ => List.cons_ne_nil _ _) hts h'
    refine ⟨rest', ?_, h'⟩
    rw [parseNegated]
    split
    · next heq =>
      rw [hskip] at heq
      obtain ⟨rfl, -⟩ := List.cons.inj heq
      exact absurd hc (by decide)
    · simp only [parseInlineNodeConstraint, hident, ok_bind, hlabels]
      rfl

/-- An optional negation is read. -/
theorem parseWhere_printed {negation : Option Negation} (hcolon : lexis.Starts (· ≠ ':') ts)
    (hwhere : lexis.Starts (fun c => toAsciiLower c ≠ Keyword.where.initial) ts)
    (h : lexis.Printed (optional Negation.tokens negation ++ ts) text) :
    ∃ rest, parseWhere text =
      .ok (negation.map fun neg => (neg.map misread).pattern, rest) ∧ lexis.Printed ts rest := by
  cases negation with
  | none =>
    refine ⟨skipWs text, ?_, skip_printed h⟩
    have hnone : tryKeyword "WHERE" (skipWs text) = none :=
      @tryKeyword_none .where _ (h.starts hwhere)
    rw [parseWhere, hnone]
    rfl
  | some neg =>
    simp only [optional, neg.tokens_eq, List.cons_append] at h
    obtain ⟨c, cs, rest, hskip, -, -, hkw, h⟩ := keyword_next h
    obtain ⟨d, ds, rest', hskip', -, -, hkw', h⟩ := keyword_next h
    obtain ⟨after, hneg, h⟩ := parseNegated_printed hcolon h
    have hwhere : tryKeyword "WHERE" (c :: cs) = some rest := hkw
    have hnot : tryKeyword "NOT" (d :: ds) = some rest' := hkw'
    refine ⟨after, ?_, h⟩
    simp only [parseWhere, hskip, hwhere, hskip', hnot, hneg, ok_bind]
    rfl

/-- Printed columns are read one after another. -/
theorem parseColumns_printed {bound : Nat} {column : Ident} {columns : List Ident}
    (hbound : columns.length < bound) (hts : lexis.Starts (· ≠ ',') ts)
    (h : lexis.Printed (.name column :: (columns.flatMap columnTokens ++ ts)) text) :
    ∃ rest, parseColumns bound text = .ok ((column :: columns).map Ident.text, rest) ∧
      lexis.Printed ts rest := by
  induction columns generalizing bound column text with
  | nil =>
    obtain ⟨bound, rfl⟩ : ∃ k, bound = k + 1 := ⟨bound - 1, by omega⟩
    obtain ⟨rest, hident, h⟩ := parseIdent_printed h
    refine ⟨skipWs rest, ?_, skip_printed h⟩
    simp only [parseColumns, hident, ok_bind]
    split
    · next heq => exact absurd rfl (h.starts hts _ (congrArg List.head? heq))
    · rfl
  | cons next columns ih =>
    obtain ⟨bound, rfl⟩ : ∃ k, bound = k + 1 := ⟨bound - 1, by omega⟩
    rw [List.length_cons] at hbound
    simp only [List.flatMap_cons, columnTokens, List.cons_append, List.nil_append] at h
    obtain ⟨rest, hident, h⟩ := parseIdent_printed h
    obtain ⟨rest', hcomma, h⟩ := mark_next h
    obtain ⟨after, hcolumns, h⟩ := @ih _ bound next (by omega) h
    refine ⟨after, ?_, h⟩
    simp only [parseColumns, hident, ok_bind, hcomma, Mark.chars, List.singleton_append, hcolumns]
    rfl

/-- An optional limit is read at the end. -/
theorem parseLimit_printed {limit : Option UInt64}
    (h : lexis.Printed (optional limitTokens limit) text) :
    ∃ rest, parseLimit text = .ok (limit, rest) ∧ lexis.Printed [] rest := by
  cases limit with
  | none =>
    refine ⟨skipWs text, ?_, skip_printed h⟩
    have hdone : skipWs text = [] := h.done
    rw [parseLimit, hdone]
    rfl
  | some n =>
    obtain ⟨c, cs, rest, hskip, -, -, hkw, h⟩ := keyword_next h
    obtain ⟨rest', hparse, h⟩ := parseUint_printed h
    have hlimit : tryKeyword "LIMIT" (c :: cs) = some rest := hkw
    refine ⟨rest', ?_, h⟩
    simp only [parseLimit, hskip, hlimit, hparse, ok_bind]
    rfl

def Query.map (f : String → String) (q : Query) : Query :=
  { q with
    seed := q.seed.map f
    hops := q.hops.map (Hop.map f)
    negation := q.negation.map (Negation.map f) }

/-- The plan of a query before its negation is attached. -/
def Query.path (q : Query) : TraversalPlan :=
  { TraversalPlan.start q.seed.denote with steps := q.hops.map Hop.denote }

/-- The plan of a query as the parser builds it. -/
def Query.plan (q : Query) : TraversalPlan :=
  { match q.negation with
    | some neg => applyNegation q.path neg.pattern
    | none => q.path with
    returnColumns := (q.column :: q.columns).map Ident.text
    limit := q.limit }

/-- The bounds of every repetition are in order. -/
def Query.InOrder (q : Query) : Prop :=
  ∀ hop ∈ q.hops, ∀ b ∈ hop.body, ∀ v ∈ b.varLen, v.InOrder

/-- A printed query is read to its end as its plan, with its strings byte by byte. -/
theorem parseQuery_printed {q : Query} (hv : q.InOrder) (h : lexis.Printed q.tokens text) :
    ∃ rest, parseQuery text = .ok ((q.map misread).plan, rest) ∧ lexis.Printed [] rest := by
  simp only [Query.tokens, List.append_assoc] at h
  obtain ⟨rest, hmatch, h⟩ := expectKeyword_printed h
  obtain ⟨rest₁, hseed, h⟩ := parseNodePattern_printed h
  have hreturn : ∀ P : Char → Prop,
      (∀ c, toAsciiLower c = Keyword.return.initial → isAsciiAlpha c = true → P c) →
      ∀ us, lexis.Starts P (.keyword .return :: us) := fun P hP us => starts_keyword hP
  have hneg : ∀ P : Char → Prop,
      (∀ c, toAsciiLower c = Keyword.where.initial → isAsciiAlpha c = true → P c) →
      lexis.Starts P (optional Negation.tokens q.negation) := by
    intro P hP
    refine starts_optional _ fun neg => ?_
    rw [neg.tokens_eq]
    exact starts_keyword hP
  have hletter : ∀ c, isAsciiAlpha c = true → c ≠ '-' ∧ c ≠ '<' := by
    intro c hc
    constructor <;> rintro rfl <;> exact absurd hc (by decide)
  obtain ⟨rest₂, hsteps, h⟩ := parseSteps_printed
    (h.length_parts_le fun _ => List.cons_ne_nil _ _) hv
    ((hneg _ fun c _ hc => hletter c hc).append (hreturn _ (fun c _ hc => hletter c hc) _)) h
  obtain ⟨rest₃, hwhere, h⟩ := parseWhere_printed
    (hreturn _ (fun c _ hc => by rintro rfl; exact absurd hc (by decide)) _)
    (hreturn _ (fun c hc _ => by rw [hc]; decide) _) h
  obtain ⟨rest₄, hret, h⟩ := expectKeyword_printed h
  have hlimit : lexis.Starts (· ≠ ',') (optional limitTokens q.limit) :=
    starts_optional _ fun _ => starts_keyword fun c _ hc => by
      rintro rfl
      exact absurd hc (by decide)
  have hbound : q.columns.length < rest₄.length + 1 := by
    have hlen := h.length_le
    have hle :=
      Lexis.length_le_flatMap (fun a => List.cons_ne_nil _ _) q.columns (f := columnTokens)
    rw [List.length_cons, List.length_append] at hlen
    omega
  obtain ⟨rest₅, hcolumns, h⟩ := parseColumns_printed hbound hlimit h
  obtain ⟨rest₆, hlim, h⟩ := parseLimit_printed h
  refine ⟨rest₆, ?_, h⟩
  have hmatch' : expectKeyword "MATCH" text = .ok rest := hmatch
  have hret' : expectKeyword "RETURN" rest₃ = .ok rest₄ := hret
  simp only [parseQuery, hmatch', hseed, hsteps, hwhere, hret', hcolumns, hlim, ok_bind]
  obtain ⟨seed, hops, negation, column, columns, limit⟩ := q
  cases negation with
  | none => rfl
  | some neg => rfl

end Cypher

end AtomrOntology
