import AtomrOntology.Rdf.NTriplesCursor
import AtomrOntology.Rdf.TurtleReturns

/-!
# Which documents the parsers return from

Turtle is read without a slice out of bounds. N-Triples is not: `\u` takes the next four bytes
and `\U` the next eight, also if they end inside a character. Which documents reach such an
escape is said by the shape of their lines.
-/

namespace AtomrOntology

namespace NTriples

/-- How many bytes an escape by number takes. -/
inductive Width : Char → Nat → Prop
  | four : Width 'u' 4
  | eight : Width 'U' 8

/-- Hexadecimal digits, possibly after a plus sign. -/
def IsHexadecimal (cs : List Char) : Prop :=
  ∃ digits, (cs = digits ∨ cs = '+' :: digits) ∧ digits ≠ [] ∧ ∀ c ∈ digits, (Hex.value c).isSome

/-- A text of characters and escapes that can stand between quotes. -/
inductive Quotable : List Char → Prop
  | nil : Quotable []
  | plain {c : Char} {rest : List Char} (hback : c ≠ '\\') (hquote : c ≠ '"')
    (hrest : Quotable rest) : Quotable (c :: rest)
  | escape {c : Char} {rest : List Char} (hc : c ∈ ['n', 'r', 't', '"', '\\'])
    (hrest : Quotable rest) : Quotable ('\\' :: c :: rest)
  | numbered {marker : Char} {n : Nat} {hex rest : List Char} (hwidth : Width marker n)
    (hlen : byteLength hex = n) (hhex : IsHexadecimal hex) (hrest : Quotable rest) :
    Quotable ('\\' :: marker :: (hex ++ rest))

/-- A text between quotes up to an escape by number whose bytes end inside a character. -/
def CutsQuoted (cs : List Char) : Prop :=
  ∃ text marker n rest, cs = text ++ '\\' :: marker :: rest ∧ Quotable text ∧ Width marker n ∧
    n ≤ byteLength rest ∧ ∀ hex, hex <+: rest → byteLength hex ≠ n

/-- The kinds of terms. -/
inductive Kind where
  | iri
  | blank
  | literal
deriving DecidableEq, Repr

/-- A blank node label or a language tag in front of the rest. -/
def IsName (label rest : List Char) : Prop :=
  (∀ c ∈ label, endsName c = false) ∧ ∀ c ∈ rest.head?, endsName c = true

/-- A term in front of the rest of a line. -/
inductive Leads : Kind → List Char → List Char → Prop
  | iri {iri rest : List Char} (hiri : '>' ∉ iri) : Leads .iri ('<' :: (iri ++ '>' :: rest)) rest
  | blank {label rest : List Char} (hlabel : IsName label rest) :
    Leads .blank ('_' :: ':' :: (label ++ rest)) rest
  | plain {text rest : List Char} (htext : Quotable text) (hat : ¬['@'] <+: rest)
    (hcarets : ¬['^', '^'] <+: rest) : Leads .literal ('"' :: (text ++ '"' :: rest)) rest
  | tagged {text lang rest : List Char} (htext : Quotable text) (hlang : IsName lang rest) :
    Leads .literal ('"' :: (text ++ '"' :: '@' :: (lang ++ rest))) rest
  | typed {text blanks iri rest : List Char} (htext : Quotable text)
    (hblanks : ∀ c ∈ blanks, isWhitespace c = true) (hiri : '>' ∉ iri) :
    Leads .literal ('"' :: (text ++ '"' :: '^' :: '^' :: (blanks ++ '<' :: (iri ++ '>' :: rest))))
      rest

/-- A subject, a predicate and an object, and nothing else. -/
def IsTriple (line : List Char) : Prop :=
  ∃ subject object rest rest' rest'', subject ≠ .literal ∧ Leads subject line rest ∧
    Leads .iri (trimStart rest) rest' ∧ Leads object (trimStart rest') rest'' ∧
      trimChars rest'' = []

/-- A literal with an escape that ends inside a character. -/
def CutsLiteral (cs : List Char) : Prop := ∃ text, cs = '"' :: text ∧ CutsQuoted text

/-- Such a literal as the first, second or third term, after terms that can be read. -/
def CutsTerm (line : List Char) : Prop :=
  CutsLiteral line ∨ ∃ subject rest, Leads subject line rest ∧
    (CutsLiteral (trimStart rest) ∨ ∃ rest', Leads .iri (trimStart rest) rest' ∧
      CutsLiteral (trimStart rest'))

/-- Blank lines and comments. -/
def IsSkipped (raw : List Char) : Prop := trimChars raw = [] ∨ (trimChars raw).head? = some '#'

/-- What stands on a line before its dot. -/
def BeforeDot (raw line : List Char) : Prop :=
  (trimEnd (trimChars raw)).getLast? = some '.' ∧
    line = trimChars (trimEnd (trimChars raw)).dropLast

/-- A line that is skipped or a triple. -/
def IsRead (raw : List Char) : Prop :=
  IsSkipped raw ∨ ∃ line, BeforeDot raw line ∧ IsTriple line

/-- A line with a literal that ends inside a character. -/
def CutsRaw (raw : List Char) : Prop :=
  ¬IsSkipped raw ∧ ∃ line, BeforeDot raw line ∧ CutsTerm line

/-- Lines of which one has such a literal, after lines that can be read. -/
def CutsLine (ls : List (List Char)) : Prop :=
  ∃ before raw after, ls = before ++ raw :: after ∧ (∀ l ∈ before, IsRead l) ∧ CutsRaw raw

/-- A document with such lines. -/
def CutsCharacter (input : String) : Prop := CutsLine (lines input.toList)

/-- What fails has failed before, or fails at the end. -/
theorem bind_eq_error {ε α β : Type} {x : Except ε α} {f : α → Except ε β} {e : ε} :
    (x >>= f) = .error e ↔ x = .error e ∨ ∃ a, x = .ok a ∧ f a = .error e := by
  cases x with
  | error e' => simp [Bind.bind, Except.bind]
  | ok a => simp [Bind.bind, Except.bind]

/-- Digits have a number if each of them has a value. -/
theorem isSome_foldl_iff (digits : List Char) (n : Option Nat) :
    (digits.foldl (fun n c => n.bind fun n => (Hex.value c).map (16 * n + ·)) n).isSome ↔
      n.isSome ∧ ∀ c ∈ digits, (Hex.value c).isSome := by
  induction digits generalizing n with
  | nil => simp
  | cons c digits ih =>
    rw [List.foldl_cons, ih, List.forall_mem_cons, ← and_assoc]
    refine and_congr_left fun _ => ?_
    cases n with
    | none => simp
    | some n => simp

/-- A number is written in hexadecimal digits. -/
theorem hexNumber_isSome_iff (cs : List Char) : (hexNumber cs).isSome ↔ IsHexadecimal cs := by
  have hdigits : ∀ digits : List Char,
      (if digits.isEmpty then none
        else digits.foldl (fun n c => n.bind fun n => (Hex.value c).map (16 * n + ·))
          (some 0)).isSome ↔ digits ≠ [] ∧ ∀ c ∈ digits, (Hex.value c).isSome := by
    intro digits
    cases digits with
    | nil => simp
    | cons c digits =>
      rw [List.isEmpty_cons, if_neg Bool.false_ne_true, isSome_foldl_iff]
      simp
  rw [hexNumber, hdigits]
  constructor
  · rintro ⟨hne, hvalues⟩
    refine ⟨_, ?_, hne, hvalues⟩
    by_cases hplus : cs.head? = some '+'
    · rw [if_pos hplus]
      obtain ⟨rest, rfl⟩ := List.head?_eq_some_iff.mp hplus
      exact Or.inr rfl
    · rw [if_neg hplus]
      exact Or.inl rfl
  · rintro ⟨digits, rfl | rfl, hne, hvalues⟩
    · have hplus : cs.head? ≠ some '+' := by
        intro hplus
        obtain ⟨rest, rfl⟩ := List.head?_eq_some_iff.mp hplus
        exact absurd (hvalues '+' List.mem_cons_self) (by decide)
      rw [if_neg hplus]
      exact ⟨hne, hvalues⟩
    · exact ⟨hne, hvalues⟩

/-- Escapes by number are read with the bytes that they take. -/
theorem readCodePoint_append {marker : Char} {hex : List Char} {k : Nat} (rest : List Char)
    (hhex : hexNumber hex = some k) :
    readCodePoint marker (byteLength hex) (hex ++ rest) = .ok (ofCodePoint k, rest) := by
  rw [readCodePoint, length_utf8_ofList, if_neg (by rw [byteLength_append]; omega),
    takeBytes_eq_some_iff.mpr ⟨rfl, rfl⟩]
  dsimp only
  rw [hhex]

/-- Escapes by number are read if their bytes make up hexadecimal digits. -/
theorem readCodePoint_ok_iff {marker : Char} {n : Nat} {cs rest : List Char} :
    (∃ chars, readCodePoint marker n cs = .ok (chars, rest)) ↔
      ∃ hex, cs = hex ++ rest ∧ byteLength hex = n ∧ IsHexadecimal hex := by
  constructor
  · rintro ⟨chars, h⟩
    rw [readCodePoint] at h
    split at h
    · cases h
    · split at h
      · cases h
      · next hex rest' hbytes =>
        obtain ⟨rfl, hlen⟩ := takeBytes_eq_some_iff.mp hbytes
        split at h
        · cases h
        · next k hk =>
          cases h
          exact ⟨hex, rfl, hlen, (hexNumber_isSome_iff hex).mp (by rw [hk]; rfl)⟩
  · rintro ⟨hex, rfl, hlen, hhex⟩
    obtain ⟨k, hk⟩ := Option.isSome_iff_exists.mp ((hexNumber_isSome_iff hex).mpr hhex)
    exact ⟨ofCodePoint k, hlen ▸ readCodePoint_append rest hk⟩

/-- Escapes by number stop inside a character if no character ends with their bytes. -/
theorem readCodePoint_cut_iff {marker : Char} {n : Nat} {cs : List Char} :
    readCodePoint marker n cs = .error .insideCharacter ↔
      n ≤ byteLength cs ∧ ∀ hex, hex <+: cs → byteLength hex ≠ n := by
  rw [readCodePoint, length_utf8_ofList]
  by_cases hshort : byteLength cs < n
  · rw [if_pos hshort]
    simp [Nat.not_le.mpr hshort]
  · rw [if_neg hshort, and_iff_right (Nat.not_lt.mp hshort)]
    cases hbytes : takeBytes n cs with
    | none =>
      refine iff_of_true rfl ?_
      rintro hex ⟨rest, rfl⟩ hlen
      rw [takeBytes_eq_some_iff.mpr ⟨rfl, hlen⟩] at hbytes
      cases hbytes
    | some parts =>
      obtain ⟨hex, rest⟩ := parts
      obtain ⟨rfl, hlen⟩ := takeBytes_eq_some_iff.mp hbytes
      refine iff_of_false ?_ fun h => h hex (List.prefix_append hex rest) hlen
      dsimp only
      cases hexNumber hex with
      | none => simp
      | some k => simp

/-- What is put in front of a lexical form twice is put there at once. -/
theorem bind_append (x : Except LineError (List Char × List Char)) (front lexical : List Char) :
    ((x >>= fun r => .ok (lexical ++ r.1, r.2)) >>= fun r => .ok (front ++ r.1, r.2)) =
      x >>= fun r => .ok (front ++ lexical ++ r.1, r.2) := by
  cases x with
  | error e => rfl
  | ok r => exact congrArg Except.ok (Prod.ext (List.append_assoc _ _ _).symm rfl)

/-- An escape that is read adds its characters. -/
theorem literalBody_escape {cs chars rest : List Char} (h : readEscape cs = .ok (chars, rest)) :
    literalBody ('\\' :: cs) = literalBody rest >>= fun r => .ok (chars ++ r.1, r.2) := by
  rw [literalBody_cons, if_pos rfl, h]
  rfl

/-- Other characters add their bytes. -/
theorem literalBody_plain {c : Char} (rest : List Char) (hback : c ≠ '\\') (hquote : c ≠ '"') :
    literalBody (c :: rest) =
      literalBody rest >>= fun r => .ok (bytesAsChars c ++ r.1, r.2) := by
  rw [literalBody_cons, if_neg hback, if_neg hquote]
  cases literalBody rest <;> rfl

/-- Escapes by number are read by their width. -/
theorem Width.readEscape {marker : Char} {n : Nat} (h : Width marker n) (cs : List Char) :
    readEscape (marker :: cs) = readCodePoint marker n cs := by
  cases h <;> rfl

/-- Such a text stands in front of what is read next. -/
theorem Quotable.literalBody_append {text : List Char} (h : Quotable text) :
    ∃ lexical, ∀ rest, literalBody (text ++ rest) =
      literalBody rest >>= fun r => .ok (lexical ++ r.1, r.2) := by
  induction h with
  | nil =>
    refine ⟨[], fun rest => ?_⟩
    rw [List.nil_append]
    cases literalBody rest <;> rfl
  | @plain c text hback hquote _ ih =>
    obtain ⟨lexical, hlexical⟩ := ih
    refine ⟨bytesAsChars c ++ lexical, fun rest => ?_⟩
    rw [List.cons_append, literalBody_plain _ hback hquote, hlexical, bind_append]
  | @escape c text hc _ ih =>
    obtain ⟨lexical, hlexical⟩ := ih
    obtain ⟨char, hread⟩ : ∃ char, ∀ rest, readEscape (c :: rest) = .ok ([char], rest) := by
      simp only [List.mem_cons, List.not_mem_nil, or_false] at hc
      rcases hc with rfl | rfl | rfl | rfl | rfl <;> exact ⟨_, fun _ => rfl⟩
    refine ⟨[char] ++ lexical, fun rest => ?_⟩
    rw [List.cons_append, List.cons_append, literalBody_escape (hread _), hlexical, bind_append]
  | @numbered marker n hex text hwidth hlen hhex _ ih =>
    obtain ⟨lexical, hlexical⟩ := ih
    obtain ⟨k, hk⟩ := Option.isSome_iff_exists.mp ((hexNumber_isSome_iff hex).mpr hhex)
    have hread : ∀ rest, readEscape (marker :: (hex ++ rest)) = .ok (ofCodePoint k, rest) := by
      intro rest
      rw [hwidth.readEscape, ← hlen, readCodePoint_append rest hk]
    refine ⟨ofCodePoint k ++ lexical, fun rest => ?_⟩
    rw [List.cons_append, List.cons_append, List.append_assoc, literalBody_escape (hread _),
      hlexical, bind_append]

/-- How an escape ends: it is read, its bytes end inside a character, or it is none. -/
inductive EscapeEnds (cs : List Char) : Prop
  | read {escape chars rest : List Char} (hcs : cs = escape ++ rest)
    (hread : readEscape cs = .ok (chars, rest))
    (hquotable : ∀ text, Quotable text → Quotable ('\\' :: (escape ++ text))) : EscapeEnds cs
  | cut {marker : Char} {n : Nat} {rest : List Char} (hcs : cs = marker :: rest)
    (hread : readEscape cs = .error .insideCharacter) (hwidth : Width marker n)
    (hle : n ≤ byteLength rest) (hcut : ∀ hex, hex <+: rest → byteLength hex ≠ n) : EscapeEnds cs
  | failed {e : LineError} (hread : readEscape cs = .error e) (he : e ≠ .insideCharacter) :
    EscapeEnds cs

/-- Every escape ends so. -/
theorem escapeEnds (cs : List Char) : EscapeEnds cs := by
  cases cs with
  | nil => exact .failed rfl (by simp)
  | cons c cs =>
    by_cases hsimple : c ∈ ['n', 'r', 't', '"', '\\']
    · have hescape : ∀ text, Quotable text → Quotable ('\\' :: ([c] ++ text)) :=
        fun _ => .escape hsimple
      simp only [List.mem_cons, List.not_mem_nil, or_false] at hsimple
      rcases hsimple with rfl | rfl | rfl | rfl | rfl <;> exact .read rfl rfl hescape
    · by_cases hmarker : c = 'u' ∨ c = 'U'
      · obtain ⟨n, hwidth⟩ : ∃ n, Width c n := by
          rcases hmarker with rfl | rfl
          · exact ⟨4, .four⟩
          · exact ⟨8, .eight⟩
        have hread := hwidth.readEscape cs
        cases hpoint : readCodePoint c n cs with
        | ok r =>
          rw [hpoint] at hread
          obtain ⟨hex, rfl, hlen, hhex⟩ := readCodePoint_ok_iff.mp ⟨r.1, hpoint⟩
          have hquotable : ∀ text, Quotable text → Quotable ('\\' :: (c :: hex ++ text)) :=
            fun text => .numbered hwidth hlen hhex
          exact .read rfl hread hquotable
        | error e =>
          rw [hpoint] at hread
          by_cases he : e = .insideCharacter
          · subst he
            obtain ⟨hle, hcut⟩ := readCodePoint_cut_iff.mp hpoint
            exact .cut rfl hread hwidth hle hcut
          · exact .failed hread he
      · have hread : readEscape (c :: cs) = .error .unknownEscape := by
          unfold readEscape
          split <;> simp_all
        exact .failed hread (by simp)

/-- A text that stops inside a character does so too after one that can be read. -/
theorem CutsQuoted.append {front cs : List Char} (h : CutsQuoted cs)
    (hfront : ∀ text, Quotable text → Quotable (front ++ text)) : CutsQuoted (front ++ cs) := by
  obtain ⟨text, marker, n, rest, rfl, htext, hwidth, hle, hcut⟩ := h
  exact ⟨front ++ text, marker, n, rest, (List.append_assoc _ _ _).symm, hfront text htext, hwidth,
    hle, hcut⟩

/-- How a text between quotes ends: with the closing quote, inside a character, or with another
error. -/
inductive QuoteEnds (cs : List Char) : Prop
  | closed {lexical text rest : List Char} (hread : literalBody cs = .ok (lexical, rest))
    (hcs : cs = text ++ '"' :: rest) (htext : Quotable text) : QuoteEnds cs
  | cut (hread : literalBody cs = .error .insideCharacter) (hcut : CutsQuoted cs) : QuoteEnds cs
  | failed {e : LineError} (hread : literalBody cs = .error e) (he : e ≠ .insideCharacter) :
    QuoteEnds cs

/-- What is read in front does not change how a text ends. -/
theorem QuoteEnds.append {rest added : List Char} (h : QuoteEnds rest) (front : List Char)
    (hread : literalBody (front ++ rest) =
      literalBody rest >>= fun r => .ok (added ++ r.1, r.2))
    (hfront : ∀ text, Quotable text → Quotable (front ++ text)) : QuoteEnds (front ++ rest) := by
  cases h with
  | @closed lexical text after hrest hcs htext =>
    rw [hrest] at hread
    have hclosed : front ++ rest = front ++ text ++ '"' :: after := by
      rw [hcs, List.append_assoc]
    exact .closed hread hclosed (hfront text htext)
  | cut hrest hcut =>
    rw [hrest] at hread
    exact .cut hread (hcut.append hfront)
  | failed hrest he =>
    rw [hrest] at hread
    exact .failed hread he

/-- Every text between quotes ends so. -/
theorem quoteEnds (cs : List Char) : QuoteEnds cs := by
  induction hn : cs.length using Nat.strong_induction_on generalizing cs with
  | h n ih =>
    cases cs with
    | nil => exact .failed (by rw [literalBody]) (by simp)
    | cons c cs =>
      rw [List.length_cons] at hn
      by_cases hback : c = '\\'
      · subst hback
        cases escapeEnds cs with
        | @read escape chars rest hcs hread hquotable =>
          subst hcs
          rw [List.length_append] at hn
          exact (ih rest.length (by omega) rest rfl).append ('\\' :: escape)
            (literalBody_escape hread) hquotable
        | @cut marker k rest hcs hread hwidth hle hcut =>
          refine .cut ?_ ⟨[], marker, k, rest, by rw [hcs]; rfl, .nil, hwidth, hle, hcut⟩
          rw [literalBody_cons, if_pos rfl, hread]
          rfl
        | failed hread he =>
          refine .failed ?_ he
          rw [literalBody_cons, if_pos rfl, hread]
          rfl
      · by_cases hquote : c = '"'
        · subst hquote
          have hclosed : '"' :: cs = [] ++ '"' :: cs := rfl
          exact .closed (by rw [literalBody_cons, if_neg hback, if_pos rfl]) hclosed .nil
        · exact (ih cs.length (by omega) cs rfl).append [c] (literalBody_plain cs hback hquote)
            fun text => .plain hback hquote

/-- A literal is read exactly if it is a text that can be quoted, and its closing quote. -/
theorem literalBody_ok_iff {cs rest : List Char} :
    (∃ lexical, literalBody cs = .ok (lexical, rest)) ↔
      ∃ text, cs = text ++ '"' :: rest ∧ Quotable text := by
  constructor
  · rintro ⟨lexical, h⟩
    cases quoteEnds cs with
    | @closed _ text _ hread hcs htext =>
      rw [h] at hread
      cases hread
      exact ⟨text, hcs, htext⟩
    | cut hread =>
      rw [h] at hread
      cases hread
    | failed hread =>
      rw [h] at hread
      cases hread
  · rintro ⟨text, rfl, htext⟩
    obtain ⟨lexical, happend⟩ := htext.literalBody_append
    refine ⟨lexical ++ [], ?_⟩
    rw [happend, literalBody_cons, if_neg (by decide), if_pos rfl]
    rfl

/-- A literal stops inside a character exactly if an escape in it does. -/
theorem literalBody_cut_iff {cs : List Char} :
    literalBody cs = .error .insideCharacter ↔ CutsQuoted cs := by
  constructor
  · intro h
    cases quoteEnds cs with
    | closed hread =>
      rw [h] at hread
      cases hread
    | cut _ hcut => exact hcut
    | failed hread he =>
      rw [h] at hread
      cases hread
      exact absurd rfl he
  · rintro ⟨text, marker, n, rest, rfl, htext, hwidth, hle, hcut⟩
    obtain ⟨lexical, happend⟩ := htext.literalBody_append
    rw [happend, literalBody_cons, if_pos rfl, hwidth.readEscape,
      readCodePoint_cut_iff.mpr ⟨hle, hcut⟩]
    rfl

/-- A name ends where its end is looked for. -/
theorem isName_iff {label rest : List Char} : IsName label rest ↔
    (label ++ rest).takeWhile (!endsName ·) = label ∧
      (label ++ rest).dropWhile (!endsName ·) = rest := by
  constructor
  · rintro ⟨hlabel, hrest⟩
    have hpos : ∀ c ∈ label, (!endsName c) = true := fun c hc => by rw [hlabel c hc]; rfl
    rw [List.takeWhile_append_of_pos hpos, List.dropWhile_append_of_pos hpos]
    cases rest with
    | nil => simp
    | cons c rest =>
      have hc := hrest c rfl
      simp [hc]
  · rintro ⟨htake, hdrop⟩
    constructor
    · intro c hc
      have := List.mem_takeWhile_imp (htake.symm ▸ hc)
      simpa using this
    · intro c hc
      have hhead := List.head?_dropWhile_not (!endsName ·) (label ++ rest)
      rw [hdrop] at hhead
      rw [Option.mem_def.mp hc] at hhead
      simpa using hhead

/-- The name in front of a text. -/
theorem isName_takeWhile (cs : List Char) :
    IsName (cs.takeWhile (!endsName ·)) (cs.dropWhile (!endsName ·)) := by
  rw [isName_iff, List.takeWhile_append_dropWhile]
  exact ⟨rfl, rfl⟩

/-- Text in angle brackets after blanks. -/
theorem stripPrefix_trimStart_iff {cs body : List Char} :
    stripPrefix ['<'] (trimStart cs) = some body ↔
      ∃ blanks, cs = blanks ++ '<' :: body ∧ ∀ c ∈ blanks, isWhitespace c = true := by
  rw [stripPrefix_eq_some, trimStart]
  constructor
  · intro h
    refine ⟨cs.takeWhile isWhitespace, ?_, fun c hc => List.mem_takeWhile_imp hc⟩
    rw [← List.singleton_append, ← h, List.takeWhile_append_dropWhile]
  · rintro ⟨blanks, rfl, hblanks⟩
    rw [List.dropWhile_append_of_pos hblanks, List.dropWhile_cons_of_neg (by decide)]
    rfl

/-- The kind of a term. -/
def Term.kind : Term → Kind
  | .iri _ => .iri
  | .blank _ => .blank
  | .literal .. => .literal

/-- A literal is read exactly if it stands in front. -/
theorem parseLiteral_ok_iff {cs rest : List Char} :
    (∃ t, parseLiteral cs = .ok (t, rest)) ↔ Leads .literal ('"' :: cs) rest := by
  constructor
  · rintro ⟨t, hread⟩
    obtain ⟨⟨lexical, after⟩, hbody, h⟩ := bind_eq_ok.mp hread
    obtain ⟨text, rfl, htext⟩ := literalBody_ok_iff.mp ⟨lexical, hbody⟩
    dsimp only at h
    split at h
    · next lang hat =>
      cases h
      rw [stripPrefix_eq_some.mp hat]
      have htagged := Leads.tagged htext (isName_takeWhile lang)
      rwa [List.takeWhile_append_dropWhile] at htagged
    · next hat =>
      split at h
      · next datatype hcarets =>
        split at h
        · cases h
        · next body hopen =>
          split at h
          · cases h
          · next iri rest' hclose =>
            cases h
            obtain ⟨blanks, rfl, hblanks⟩ := stripPrefix_trimStart_iff.mp hopen
            obtain ⟨hiri, rfl⟩ := splitOnce_some hclose
            rw [stripPrefix_eq_some.mp hcarets]
            exact .typed htext hblanks hiri
      · next hcarets =>
        cases h
        exact .plain htext (stripPrefix_eq_none_iff.mp hat) (stripPrefix_eq_none_iff.mp hcarets)
  · intro h
    cases h with
    | plain htext hat hcarets =>
      obtain ⟨lexical, hbody⟩ := literalBody_ok_iff.mpr ⟨_, rfl, htext⟩
      refine ⟨.literal (.ofList lexical) xsdString none, bind_eq_ok.mpr ⟨_, hbody, ?_⟩⟩
      dsimp only
      rw [stripPrefix_eq_none_iff.mpr hat, stripPrefix_eq_none_iff.mpr hcarets]
      rfl
    | @tagged text lang _ htext hlang =>
      obtain ⟨lexical, hbody⟩ := literalBody_ok_iff.mpr ⟨_, rfl, htext⟩
      refine ⟨.literal (.ofList lexical) Turtle.langString (some (.ofList lang)),
        bind_eq_ok.mpr ⟨_, hbody, ?_⟩⟩
      have hat : stripPrefix ['@'] ('@' :: (lang ++ rest)) = some (lang ++ rest) :=
        stripPrefix_append ['@'] _
      dsimp only
      rw [hat]
      dsimp only
      rw [(isName_iff.mp hlang).1, (isName_iff.mp hlang).2]
      rfl
    | @typed text blanks iri _ htext hblanks hiri =>
      obtain ⟨lexical, hbody⟩ := literalBody_ok_iff.mpr ⟨_, rfl, htext⟩
      refine ⟨.literal (.ofList lexical) ⟨.ofList iri⟩ none, bind_eq_ok.mpr ⟨_, hbody, ?_⟩⟩
      have hat : stripPrefix ['@'] ('^' :: '^' :: (blanks ++ '<' :: (iri ++ '>' :: rest))) = none :=
        stripPrefix_eq_none_iff.mpr (by simp [List.cons_prefix_cons])
      have hcarets :
          stripPrefix ['^', '^'] ('^' :: '^' :: (blanks ++ '<' :: (iri ++ '>' :: rest))) =
            some (blanks ++ '<' :: (iri ++ '>' :: rest)) := stripPrefix_append ['^', '^'] _
      dsimp only
      rw [hat, hcarets]
      dsimp only
      rw [stripPrefix_trimStart_iff.mpr ⟨blanks, rfl, hblanks⟩]
      dsimp only
      rw [splitOnce_append rest hiri]
      rfl

/-- What is read as a literal is one. -/
theorem kind_of_parseLiteral {cs : List Char} {r : Term × List Char}
    (h : parseLiteral cs = .ok r) : r.1.kind = .literal := by
  obtain ⟨⟨lexical, after⟩, -, h⟩ := bind_eq_ok.mp h
  dsimp only at h
  split at h
  · cases h
    rfl
  · split at h
    · split at h
      · cases h
      · split at h
        · cases h
        · cases h
          rfl
    · cases h
      rfl

/-- A literal stops inside a character exactly if its quoted text does. -/
theorem parseLiteral_cut_iff {cs : List Char} :
    parseLiteral cs = .error .insideCharacter ↔ CutsQuoted cs := by
  rw [parseLiteral, bind_eq_error, literalBody_cut_iff]
  refine or_iff_left ?_
  rintro ⟨⟨lexical, rest⟩, -, h⟩
  dsimp only at h
  split at h
  · cases h
  · split at h
    · split at h
      · cases h
      · split at h <;> cases h
    · cases h

/-- A term is read exactly if it stands in front. -/
theorem parseTerm_ok_iff {kind : Kind} {cs rest : List Char} :
    (∃ t, parseTerm cs = .ok (t, rest) ∧ t.kind = kind) ↔ Leads kind cs rest := by
  constructor
  · rintro ⟨t, h, rfl⟩
    unfold parseTerm at h
    split at h
    · cases h
    · split at h
      · cases h
      · next iri rest' hclose =>
        cases h
        obtain ⟨hiri, rfl⟩ := splitOnce_some hclose
        exact .iri hiri
    · next body =>
      cases h
      have hblank := Leads.blank (isName_takeWhile body)
      rwa [List.takeWhile_append_dropWhile] at hblank
    · next body =>
      have hkind := kind_of_parseLiteral h
      rw [hkind]
      exact parseLiteral_ok_iff.mp ⟨t, h⟩
    · cases h
  · intro h
    cases kind with
    | iri =>
      cases h with
      | @iri iri _ hiri =>
        refine ⟨.iri ⟨.ofList iri⟩, ?_, rfl⟩
        rw [parseTerm, splitOnce_append rest hiri]
    | blank =>
      cases h with
      | @blank label _ hlabel =>
        refine ⟨.blank (.ofList label), ?_, rfl⟩
        rw [parseTerm, (isName_iff.mp hlabel).1, (isName_iff.mp hlabel).2]
    | literal =>
      obtain ⟨text, rfl⟩ : ∃ text, cs = '"' :: text := by cases h <;> exact ⟨_, rfl⟩
      obtain ⟨t, ht⟩ := parseLiteral_ok_iff.mpr h
      exact ⟨t, ht, kind_of_parseLiteral ht⟩

/-- A term stops inside a character exactly if it is a literal that does. -/
theorem parseTerm_cut_iff {cs : List Char} :
    parseTerm cs = .error .insideCharacter ↔ CutsLiteral cs := by
  constructor
  · intro h
    unfold parseTerm at h
    split at h
    · cases h
    · split at h <;> cases h
    · cases h
    · next text => exact ⟨text, rfl, parseLiteral_cut_iff.mp h⟩
    · cases h
  · rintro ⟨text, rfl, hcut⟩
    exact parseLiteral_cut_iff.mpr hcut

/-- Predicates are IRIs. -/
theorem toPredicate_eq_ok_iff {t : Term} : (∃ iri, t.toPredicate = .ok iri) ↔ t.kind = .iri := by
  cases t <;> simp [Term.toPredicate, Term.kind]

/-- A term that is no predicate is not cut. -/
theorem toPredicate_ne_cut (t : Term) : t.toPredicate ≠ .error .insideCharacter := by
  cases t <;> simp [Term.toPredicate]

/-- Subjects are IRIs and blank nodes. -/
theorem toSubject_eq_ok_iff {t : Term} : (∃ s, t.toSubject = .ok s) ↔ t.kind ≠ .literal := by
  cases t <;> simp [Term.toSubject, Term.kind]

/-- A term that is no subject is not cut. -/
theorem toSubject_ne_cut (t : Term) : t.toSubject ≠ .error .insideCharacter := by
  cases t <;> simp [Term.toSubject]

/-- A line is read exactly if it is a triple. -/
theorem parseTerms_ok_iff {line : List Char} :
    (∃ t, parseTerms line = .ok t) ↔ IsTriple line := by
  constructor
  · rintro ⟨t, h⟩
    obtain ⟨⟨subject, rest⟩, hsubject, h⟩ := bind_eq_ok.mp h
    obtain ⟨⟨predicate, rest'⟩, hpredicate, h⟩ := bind_eq_ok.mp h
    obtain ⟨iri, hiri, h⟩ := bind_eq_ok.mp h
    obtain ⟨⟨object, rest''⟩, hobject, h⟩ := bind_eq_ok.mp h
    dsimp only at h
    split at h
    · next hend =>
      obtain ⟨s, hs, -⟩ := bind_eq_ok.mp h
      exact ⟨_, _, rest, rest', rest'', toSubject_eq_ok_iff.mp ⟨s, hs⟩,
        parseTerm_ok_iff.mp ⟨subject, hsubject, rfl⟩,
        parseTerm_ok_iff.mp ⟨predicate, hpredicate, toPredicate_eq_ok_iff.mp ⟨iri, hiri⟩⟩,
        parseTerm_ok_iff.mp ⟨object, hobject, rfl⟩, hend⟩
    · cases h
  · rintro ⟨_, _, rest, rest', rest'', hkind, hsubject, hpredicate, hobject, hend⟩
    obtain ⟨subject, hs, rfl⟩ := parseTerm_ok_iff.mpr hsubject
    obtain ⟨predicate, hp, hpredicateKind⟩ := parseTerm_ok_iff.mpr hpredicate
    obtain ⟨object, ho, rfl⟩ := parseTerm_ok_iff.mpr hobject
    obtain ⟨iri, hiri⟩ := toPredicate_eq_ok_iff.mpr hpredicateKind
    obtain ⟨s, hs'⟩ := toSubject_eq_ok_iff.mpr hkind
    refine ⟨⟨s, iri, object.toObject⟩, bind_eq_ok.mpr ⟨_, hs, bind_eq_ok.mpr ⟨_, hp,
      bind_eq_ok.mpr ⟨iri, hiri, bind_eq_ok.mpr ⟨_, ho, ?_⟩⟩⟩⟩⟩
    dsimp only
    rw [if_pos hend, hs']
    rfl

/-- A line stops inside a character exactly if one of its terms does, after terms that can be
read. -/
theorem parseTerms_cut_iff {line : List Char} :
    parseTerms line = .error .insideCharacter ↔ CutsTerm line := by
  rw [parseTerms, bind_eq_error, parseTerm_cut_iff, CutsTerm]
  refine or_congr_right ?_
  constructor
  · rintro ⟨⟨subject, rest⟩, hsubject, h⟩
    refine ⟨_, rest, parseTerm_ok_iff.mp ⟨subject, hsubject, rfl⟩, ?_⟩
    rcases bind_eq_error.mp h with h | ⟨⟨predicate, rest'⟩, hpredicate, h⟩
    · exact Or.inl (parseTerm_cut_iff.mp h)
    · rcases bind_eq_error.mp h with h | ⟨iri, hiri, h⟩
      · exact absurd h (toPredicate_ne_cut predicate)
      · refine Or.inr ⟨rest', parseTerm_ok_iff.mp
          ⟨predicate, hpredicate, toPredicate_eq_ok_iff.mp ⟨iri, hiri⟩⟩, ?_⟩
        rcases bind_eq_error.mp h with h | ⟨⟨object, rest''⟩, -, h⟩
        · exact parseTerm_cut_iff.mp h
        · dsimp only at h
          split at h
          · rcases bind_eq_error.mp h with h | ⟨s, -, h⟩
            · exact absurd h (toSubject_ne_cut subject)
            · cases h
          · cases h
  · rintro ⟨_, rest, hsubject, h⟩
    obtain ⟨subject, hs, rfl⟩ := parseTerm_ok_iff.mpr hsubject
    refine ⟨_, hs, bind_eq_error.mpr ?_⟩
    rcases h with h | ⟨rest', hpredicate, h⟩
    · exact Or.inl (parseTerm_cut_iff.mpr h)
    · obtain ⟨predicate, hp, hkind⟩ := parseTerm_ok_iff.mpr hpredicate
      obtain ⟨iri, hiri⟩ := toPredicate_eq_ok_iff.mpr hkind
      exact Or.inr ⟨_, hp, bind_eq_error.mpr (Or.inr ⟨iri, hiri,
        bind_eq_error.mpr (Or.inl (parseTerm_cut_iff.mpr h))⟩)⟩

/-- A line with its dot is read exactly if what stands before the dot is a triple. -/
theorem parseTriple_ok_iff {raw : List Char} :
    (∃ t, parseTriple (trimChars raw) = .ok t) ↔ ∃ line, BeforeDot raw line ∧ IsTriple line := by
  rw [parseTriple]
  by_cases hdot : (trimEnd (trimChars raw)).getLast? = some '.'
  · rw [if_pos hdot, parseTerms_ok_iff]
    constructor
    · intro h
      exact ⟨_, ⟨hdot, rfl⟩, h⟩
    · rintro ⟨_, ⟨-, rfl⟩, h⟩
      exact h
  · rw [if_neg hdot]
    refine iff_of_false (by simp) ?_
    rintro ⟨_, ⟨h, -⟩, -⟩
    exact hdot h

/-- A line with its dot stops inside a character exactly if what stands before the dot does. -/
theorem parseTriple_cut_iff {raw : List Char} :
    parseTriple (trimChars raw) = .error .insideCharacter ↔
      ∃ line, BeforeDot raw line ∧ CutsTerm line := by
  rw [parseTriple]
  by_cases hdot : (trimEnd (trimChars raw)).getLast? = some '.'
  · rw [if_pos hdot, parseTerms_cut_iff]
    constructor
    · intro h
      exact ⟨_, ⟨hdot, rfl⟩, h⟩
    · rintro ⟨_, ⟨-, rfl⟩, h⟩
      exact h
  · rw [if_neg hdot]
    refine iff_of_false (by simp) ?_
    rintro ⟨_, ⟨h, -⟩, -⟩
    exact hdot h

/-- A line that is read leaves it to the others. -/
theorem cutsLine_cons {raw : List Char} {ls : List (List Char)} (hread : IsRead raw)
    (hcut : ¬CutsRaw raw) : CutsLine (raw :: ls) ↔ CutsLine ls := by
  constructor
  · rintro ⟨before, raw', after, hls, hbefore, hcut'⟩
    cases before with
    | nil =>
      cases hls
      exact absurd hcut' hcut
    | cons l before =>
      cases hls
      exact ⟨before, raw', after, rfl, (List.forall_mem_cons.mp hbefore).2, hcut'⟩
  · rintro ⟨before, raw', after, rfl, hbefore, hcut'⟩
    exact ⟨raw :: before, raw', after, rfl, List.forall_mem_cons.mpr ⟨hread, hbefore⟩, hcut'⟩

/-- A line that is not read is the last one that is reached. -/
theorem cutsLine_cons_of_not_read {raw : List Char} {ls : List (List Char)}
    (hread : ¬IsRead raw) : CutsLine (raw :: ls) ↔ CutsRaw raw := by
  constructor
  · rintro ⟨before, raw', after, hls, hbefore, hcut⟩
    cases before with
    | nil =>
      cases hls
      exact hcut
    | cons l before =>
      cases hls
      exact absurd (List.forall_mem_cons.mp hbefore).1 hread
  · intro hcut
    exact ⟨[], raw, ls, rfl, by simp, hcut⟩

/-- Lines stop inside a character exactly if one of them does, after lines that can be read. -/
theorem parseLines_cut_iff {lineno : Nat} {ls : List (List Char)} :
    (∃ n, parseLines lineno ls = .error (n, .insideCharacter)) ↔ CutsLine ls := by
  induction ls generalizing lineno with
  | nil => simp [parseLines, CutsLine]
  | cons raw ls ih =>
    rw [parseLines]
    by_cases hskip : trimChars raw = [] ∨ (trimChars raw).head? = some '#'
    · rw [if_pos hskip, ih, cutsLine_cons (Or.inl hskip) fun hcut => hcut.1 hskip]
    · rw [if_neg hskip]
      have hcut : CutsRaw raw ↔ parseTriple (trimChars raw) = .error .insideCharacter := by
        rw [parseTriple_cut_iff, CutsRaw]
        exact and_iff_right hskip
      have htriple : IsRead raw ↔ ∃ t, parseTriple (trimChars raw) = .ok t := by
        rw [parseTriple_ok_iff, IsRead]
        exact or_iff_right hskip
      cases hread : parseTriple (trimChars raw) with
      | ok t =>
        rw [hread] at hcut htriple
        rw [cutsLine_cons (htriple.mpr ⟨t, rfl⟩) (by simp [hcut]), ← @ih (lineno + 1)]
        cases parseLines (lineno + 1) ls <;> simp [Except.map]
      | error e =>
        rw [hread] at hcut htriple
        rw [cutsLine_cons_of_not_read (by simp [htriple]), hcut]
        simp

/-- The parser goes out of bounds exactly on the documents that cut a character. -/
theorem Bytes.parse_eq_none_iff (input : String) :
    (Bytes.parse input.toList).run = none ↔ CutsCharacter input := by
  rw [(Bytes.parse_agrees input).eq_none_iff, NTriples.parse, CutsCharacter, ← parseLines_cut_iff]
  constructor
  · rintro ⟨⟨n, e⟩, h, rfl⟩
    exact ⟨n, h⟩
  · rintro ⟨n, h⟩
    exact ⟨_, h, rfl⟩

/-- A document in which the fourth byte after `\u` is the first of the two of `é`. -/
def accented : String := "<a:s> <a:p> \"\\u00eé\" ."

/-- The literal is the third term, after two IRIs. -/
theorem accented_cuts : CutsCharacter accented := by
  have hcut : ∀ hex, hex <+: "00eé\"".toList → byteLength hex ≠ 4 := by
    intro hex hstarts hlen
    have hslice := sliceTo_eq_some_iff.mpr ⟨hstarts, hlen⟩
    have hnone : sliceTo 4 "00eé\"".toList = none := by decide
    rw [hnone] at hslice
    cases hslice
  have hquoted : CutsQuoted "\\u00eé\"".toList :=
    ⟨[], 'u', 4, "00eé\"".toList, by decide, .nil, .four, by decide, hcut⟩
  have hterm : CutsTerm "<a:s> <a:p> \"\\u00eé\"".toList := by
    refine Or.inr ⟨.iri, " <a:p> \"\\u00eé\"".toList, ?_, Or.inr ⟨" \"\\u00eé\"".toList, ?_, ?_⟩⟩
    · exact @Leads.iri "a:s".toList _ (by decide)
    · exact @Leads.iri "a:p".toList _ (by decide)
    · exact ⟨"\\u00eé\"".toList, by decide, hquoted⟩
  refine ⟨[], accented.toList, [], by decide, by simp, ?_, _, ⟨by decide, rfl⟩, hterm⟩
  unfold IsSkipped
  decide

end NTriples

/-- Both parsers return from a document, with triples or an error. -/
def ParsersReturn (input : String) : Prop :=
  (NTriples.Bytes.parse input.toList).run.isSome ∧ (Turtle.Parser.parse input.toList).run.isSome

/-- The parsers return from a document exactly if no line of N-Triples that is reached has an
escape by number whose bytes end inside a character. -/
theorem parsersReturn_iff (input : String) :
    ParsersReturn input ↔ ¬NTriples.CutsCharacter input := by
  rw [ParsersReturn, and_iff_left (Turtle.Parser.parse_returns _), ← Option.ne_none_iff_isSome,
    ne_eq, NTriples.Bytes.parse_eq_none_iff]

/-- N-Triples does not return from a document that cuts the `é` after `\u`. -/
theorem accent_in_escape : ¬ParsersReturn NTriples.accented := by
  rintro ⟨h, -⟩
  rw [(NTriples.Bytes.parse_eq_none_iff _).mpr NTriples.accented_cuts] at h
  cases h

end AtomrOntology
