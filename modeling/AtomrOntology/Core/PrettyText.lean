import AtomrOntology.Core.JsonText
import AtomrOntology.Core.Slices
import AtomrOntology.Logic.Brackets

/-!
# The pretty text of a JSON document

The printer is the pretty formatter of `serde_json`: a line for each item and each entry, with two
blanks for each open bracket. Without the blanks outside of strings it is the compact text. The
bytes of an object are closed only by the last one, and a reader accepts only what is closed.
-/

namespace AtomrOntology.Json

open Brackets

/-- A line break, and the blanks before the next line. -/
def newline (indent : Nat) : List Char := '\n' :: List.replicate (2 * indent) ' '

section

variable [SerdeJson]

mutual

/-- The printed characters. -/
def prettyChars (indent : Nat) : Json → List Char
  | .null => chars .null
  | .bool b => chars (.bool b)
  | .int i => chars (.int i)
  | .float f => chars (.float f)
  | .str s => quoted s
  | .arr [] => ['[', ']']
  | .arr (x :: xs) =>
    '[' :: (newline (indent + 1) ++ prettyChars (indent + 1) x ++ prettyItems (indent + 1) xs ++
      newline indent) ++ [']']
  | .obj [] => ['{', '}']
  | .obj ((k, x) :: xs) =>
    '{' :: (newline (indent + 1) ++ (quoted k ++ ':' :: ' ' :: prettyChars (indent + 1) x) ++
      prettyEntries (indent + 1) xs ++ newline indent) ++ ['}']

/-- The items after the first one. -/
def prettyItems (indent : Nat) : List Json → List Char
  | [] => []
  | x :: xs => ',' :: newline indent ++ prettyChars indent x ++ prettyItems indent xs

/-- The entries after the first one. -/
def prettyEntries (indent : Nat) : List (String × Json) → List Char
  | [] => []
  | (k, x) :: xs =>
    ',' :: newline indent ++ (quoted k ++ ':' :: ' ' :: prettyChars indent x) ++
      prettyEntries indent xs

end

/-- `serde_json::to_vec_pretty`. -/
def toVecPretty (j : Json) : List UInt8 := utf8 (.ofList (prettyChars 0 j))

end

/-- What a byte is for. -/
def byteMark (b : UInt8) : Mark :=
  if b = 0x22 then .quote
  else if b = 0x5c then .escape
  else if b = 0x5b ∨ b = 0x7b then .opening
  else if b = 0x5d ∨ b = 0x7d then .closing
  else .other

/-- What the bytes of some characters are for. -/
def marks (cs : List Char) : List Mark := (utf8 (.ofList cs)).map byteMark

/-- Neither a bracket nor what is special in strings. -/
def Plain (c : Char) : Prop := c ∉ ['"', '\\', '[', ']', '{', '}']

instance : DecidablePred Plain := fun _ => inferInstanceAs (Decidable (_ ∉ _))

/-- The marks of a text are those of its parts. -/
theorem marks_append (cs ds : List Char) : marks (cs ++ ds) = marks cs ++ marks ds := by
  rw [marks, String.ofList_append, utf8_append, List.map_append]
  rfl

theorem marks_cons (c : Char) (cs : List Char) : marks (c :: cs) = marks [c] ++ marks cs :=
  marks_append [c] cs

theorem marks_quote : marks ['"'] = [.quote] := by decide +kernel
theorem marks_openArray : marks ['['] = [.opening] := by decide +kernel
theorem marks_closeArray : marks [']'] = [.closing] := by decide +kernel
theorem marks_openObject : marks ['{'] = [.opening] := by decide +kernel
theorem marks_closeObject : marks ['}'] = [.closing] := by decide +kernel

/-- Bytes other than quotes, escapes and brackets are not marked. -/
theorem byteMark_other {b : UInt8} (h : b ∉ ([0x22, 0x5c, 0x5b, 0x5d, 0x7b, 0x7d] : List UInt8)) :
    byteMark b = .other := by
  simp only [List.mem_cons, List.not_mem_nil, or_false, not_or] at h
  rw [byteMark, if_neg h.1, if_neg h.2.1, if_neg (not_or.mpr ⟨h.2.2.1, h.2.2.2.2.1⟩),
    if_neg (not_or.mpr ⟨h.2.2.2.1, h.2.2.2.2.2⟩)]

/-- The bytes of plain characters are not those of special ones. -/
theorem marks_of_plain {c : Char} (h : Plain c) : ∀ m ∈ marks [c], m = .other := by
  intro m hm
  obtain ⟨b, hb, rfl⟩ := List.mem_map.mp hm
  refine byteMark_other fun hspecial => ?_
  rcases Nat.lt_or_ge c.toNat 128 with hascii | hlong
  · have hsingle : b ∈ utf8 (.singleton c) := hb
    rw [utf8_singleton_of_ascii hascii, List.mem_singleton] at hsingle
    have hlist : ([0x22, 0x5c, 0x5b, 0x5d, 0x7b, 0x7d] : List UInt8) =
        ['"', '\\', '[', ']', '{', '}'].map fun d => UInt8.ofNat d.toNat := by decide
    rw [hlist] at hspecial
    obtain ⟨d, hd, hbd⟩ := List.mem_map.mp hspecial
    have hsmall : ∀ d ∈ ['"', '\\', '[', ']', '{', '}'], d.toNat < 256 := by simp
    have hnat := congrArg UInt8.toNat (hbd.trans hsingle)
    rw [UInt8.toNat_ofNat', UInt8.toNat_ofNat', Nat.mod_eq_of_lt (hsmall d hd),
      Nat.mod_eq_of_lt (by omega)] at hnat
    exact h (Char.toNat_inj.mp hnat ▸ hd)
  · have hge : 128 ≤ b.toNat := le_of_mem_utf8_singleton hlong hb
    have hlow : ∀ x ∈ ([0x22, 0x5c, 0x5b, 0x5d, 0x7b, 0x7d] : List UInt8), x.toNat < 128 := by
      decide +kernel
    exact absurd (hlow b hspecial) (Nat.not_lt.mpr hge)

/-- Plain text neither opens nor closes anything. -/
theorem neutral_plain {cs : List Char} (h : ∀ c ∈ cs, Plain c) : Neutral (marks cs) := by
  induction cs with
  | nil => exact Returns.nil fun _ => rfl
  | cons c cs ih =>
    rw [List.forall_mem_cons] at h
    rw [marks_cons]
    exact Returns.append (Neutral.others (marks_of_plain h.1)) (ih h.2)

theorem neutral_nil : Neutral (marks []) := neutral_plain nofun

/-- So does a text that is plain throughout. -/
theorem neutral_of_all {cs : List Char} (h : (cs.all fun c => decide (Plain c)) = true) :
    Neutral (marks cs) :=
  neutral_plain fun c hc => of_decide_eq_true (List.all_eq_true.mp h c hc)

/-- An escaped control character marks its escape and nothing else. -/
private theorem control_marks (n : Nat) (h : n < 32) :
    (marks (escapeChar (Char.ofNat n))).take 2 = [.escape, .other] ∧
      ∀ m ∈ (marks (escapeChar (Char.ofNat n))).drop 2, m = .other := by
  interval_cases n <;> decide +kernel

/-- An escaped character is a part of a string. -/
theorem content_escapeChar (c : Char) : Content (marks (escapeChar c)) := by
  by_cases hcontrol : c.toNat < 32
  · obtain ⟨hhead, htail⟩ := control_marks _ hcontrol
    rw [Char.ofNat_toNat] at hhead htail
    rw [← List.take_append_drop 2 (marks (escapeChar c)), hhead]
    refine Returns.append (Content.escaped .other) (Content.plain fun m hm => ?_)
    rw [htail m hm]
    decide
  by_cases hquote : c = '"'
  · subst hquote
    exact Content.escaped .quote
  by_cases hescape : c = '\\'
  · subst hescape
    exact Content.escaped .escape
  · rw [escapeChar_plain hcontrol hquote hescape]
    refine Content.plain fun m hm => ?_
    by_cases hplain : Plain c
    · rw [marks_of_plain hplain m hm]
      decide
    · rw [Plain, not_not] at hplain
      -- a bracket
      simp only [List.mem_cons, List.not_mem_nil, or_false, hquote, hescape, false_or] at hplain
      rcases hplain with rfl | rfl | rfl | rfl <;>
      · revert m
        decide +kernel

/-- A quoted text closes its quotes. -/
theorem neutral_quoted (s : String) : Neutral (marks (quoted s)) := by
  have hcontent : Content (marks (s.toList.flatMap escapeChar)) := by
    induction s.toList with
    | nil => exact Returns.nil fun _ => rfl
    | cons c cs ih =>
      rw [List.flatMap_cons, marks_append]
      exact Returns.append (content_escapeChar c) ih
  rw [quoted, marks_append, marks_cons, marks_quote]
  exact Neutral.quoted hcontent

/-- Numbers are plain. -/
theorem plain_of_numeric {c : Char} (h : Numeric c) : Plain c := by
  intro hmem
  simp only [List.mem_cons, List.not_mem_nil, or_false] at hmem
  rcases hmem with rfl | rfl | rfl | rfl | rfl | rfl <;> exact absurd h (by decide)

/-- Line breaks and indents are plain. -/
theorem neutral_newline (indent : Nat) : Neutral (marks (newline indent)) := by
  refine neutral_plain fun c hc => ?_
  rcases List.mem_cons.mp hc with rfl | hc
  · decide
  · rw [List.eq_of_mem_replicate hc]
    decide

/-- Brackets around a text. -/
theorem neutral_array {cs : List Char} (h : Neutral (marks cs)) :
    Neutral (marks ('[' :: cs ++ [']'])) := by
  rw [marks_append, marks_cons, marks_openArray, marks_closeArray]
  exact Neutral.bracketed h

/-- An object closes its braces. -/
theorem neutral_object {cs : List Char} (h : Neutral (marks cs)) :
    Neutral (marks ('{' :: cs ++ ['}'])) := by
  rw [marks_append, marks_cons, marks_openObject, marks_closeObject]
  exact Neutral.bracketed h

/-- An entry is neutral if its value is. -/
theorem neutral_entry {k : String} {cs : List Char} (h : Neutral (marks cs)) :
    Neutral (marks (quoted k ++ ':' :: ' ' :: cs)) := by
  have hcolon : Neutral (marks [':', ' ']) := neutral_of_all rfl
  have hsplit : quoted k ++ ':' :: ' ' :: cs = quoted k ++ ([':', ' '] ++ cs) := rfl
  rw [hsplit, marks_append, marks_append]
  exact Returns.append (neutral_quoted k) (Returns.append hcolon h)

/-- A comma in front does not matter. -/
theorem neutral_comma {cs : List Char} (h : Neutral (marks cs)) : Neutral (marks (',' :: cs)) := by
  rw [marks_cons]
  exact Returns.append (neutral_of_all rfl) h

section

variable [SerdeJson]

mutual

/-- A document closes what it opens. -/
theorem neutral_pretty : ∀ (indent : Nat) (j : Json), Neutral (marks (prettyChars indent j))
  | _, .null => neutral_of_all rfl
  | _, .bool true => neutral_of_all rfl
  | _, .bool false => neutral_of_all rfl
  | _, .int i => neutral_plain fun _ hc => plain_of_numeric (intChars_numeric hc)
  | _, .float f => neutral_plain fun c hc => plain_of_numeric (SerdeJson.floatText_numeric f c hc)
  | _, .str s => neutral_quoted s
  | _, .arr [] => neutral_array neutral_nil
  | indent, .arr (x :: xs) => by
    refine neutral_array ?_
    rw [marks_append, marks_append, marks_append]
    exact ((Returns.append (neutral_newline _) (neutral_pretty _ x)).append
      (neutral_items _ xs)).append (neutral_newline _)
  | _, .obj [] => neutral_object neutral_nil
  | indent, .obj ((k, x) :: xs) => by
    refine neutral_object ?_
    rw [marks_append, marks_append, marks_append]
    exact ((Returns.append (neutral_newline _) (neutral_entry (neutral_pretty _ x))).append
      (neutral_entries _ xs)).append (neutral_newline _)

/-- Items are neutral, since each of them is. -/
theorem neutral_items : ∀ (indent : Nat) (xs : List Json), Neutral (marks (prettyItems indent xs))
  | _, [] => neutral_nil
  | indent, x :: xs => by
    rw [prettyItems, List.cons_append, List.cons_append]
    refine neutral_comma ?_
    rw [marks_append, marks_append]
    exact (Returns.append (neutral_newline _) (neutral_pretty _ x)).append (neutral_items _ xs)

/-- Entries are neutral, since each of them is. -/
theorem neutral_entries : ∀ (indent : Nat) (xs : List (String × Json)),
    Neutral (marks (prettyEntries indent xs))
  | _, [] => neutral_nil
  | indent, (k, x) :: xs => by
    rw [prettyEntries, List.cons_append, List.cons_append]
    refine neutral_comma ?_
    rw [marks_append, marks_append]
    exact (Returns.append (neutral_newline _) (neutral_entry (neutral_pretty _ x))).append
      (neutral_entries _ xs)

end

/-- The first bytes of an object are a closed text exactly if they are all of them. -/
theorem closed_take_toVecPretty_iff (entries : List (String × Json)) (n : Nat) :
    Closed (((toVecPretty (.obj entries)).take n).map byteMark) ↔
      (toVecPretty (.obj entries)).length ≤ n := by
  obtain ⟨cs, hneutral, hcs⟩ : ∃ cs, Neutral (marks cs) ∧
      prettyChars 0 (.obj entries) = '{' :: cs ++ ['}'] := by
    cases entries with
    | nil => exact ⟨[], neutral_nil, rfl⟩
    | cons e xs =>
      obtain ⟨k, x⟩ := e
      refine ⟨_, ?_, rfl⟩
      rw [marks_append, marks_append, marks_append]
      exact ((Returns.append (neutral_newline _) (neutral_entry (neutral_pretty _ x))).append
        (neutral_entries _ xs)).append (neutral_newline _)
  have hmarks : (toVecPretty (.obj entries)).map byteMark =
      Mark.opening :: marks cs ++ [Mark.closing] := by
    have hall : (toVecPretty (.obj entries)).map byteMark = marks ('{' :: cs ++ ['}']) := by
      rw [toVecPretty, hcs]
      rfl
    rw [hall, marks_append, marks_cons, marks_openObject, marks_closeObject]
    rfl
  have hlen := congrArg List.length hmarks
  rw [List.length_map, length_between] at hlen
  rw [List.map_take, hmarks, closed_take_iff hneutral, hlen]

end

/-- Leave out the blanks and line breaks outside of strings. -/
def compact (quoted escaped : Bool) : List Char → List Char
  | [] => []
  | c :: cs =>
    if quoted then
      if escaped then c :: compact true false cs
      else if c = '"' then c :: compact false false cs
      else c :: compact true (c = '\\') cs
    else if c = '"' then c :: compact true false cs
    else if c = ' ' ∨ c = '\n' then compact false false cs
    else c :: compact false false cs

/-- What stays outside of strings. -/
def Solid (c : Char) : Prop := c ≠ '"' ∧ c ≠ ' ' ∧ c ≠ '\n'

instance : DecidablePred Solid := fun _ => inferInstanceAs (Decidable (_ ∧ _))

/-- Solid text is kept. -/
theorem compact_solid {cs : List Char} (h : ∀ c ∈ cs, Solid c) (r : List Char) :
    compact false false (cs ++ r) = cs ++ compact false false r := by
  induction cs with
  | nil => rfl
  | cons c cs ih =>
    rw [List.forall_mem_cons] at h
    obtain ⟨⟨hquote, hblank, hline⟩, h⟩ := h
    rw [List.cons_append, compact, if_neg Bool.false_ne_true, if_neg hquote,
      if_neg (not_or.mpr ⟨hblank, hline⟩), ih h, List.cons_append]

/-- A solid character is kept. -/
theorem compact_cons {c : Char} (h : Solid c) (cs : List Char) :
    compact false false (c :: cs) = c :: compact false false cs :=
  compact_solid (List.forall_mem_singleton.mpr h) cs

/-- A blank between tokens is left out. -/
theorem compact_blank (cs : List Char) :
    compact false false (' ' :: cs) = compact false false cs := rfl

/-- Line breaks and indents are left out. -/
theorem compact_newline (indent : Nat) (r : List Char) :
    compact false false (newline indent ++ r) = compact false false r := by
  have hblanks : ∀ n, compact false false (List.replicate n ' ' ++ r) = compact false false r := by
    intro n
    induction n with
    | zero => rfl
    | succ n ih =>
      rw [List.replicate_succ, List.cons_append]
      exact ih
  exact hblanks _

/-- An escaped control character is kept inside a text. -/
private theorem control_compact (n : Nat) (h : n < 32) (r : List Char) :
    compact true false (escapeChar (Char.ofNat n) ++ r) =
      escapeChar (Char.ofNat n) ++ compact true false r := by
  interval_cases n <;> rfl

/-- Inside a text every escaped character is kept. -/
theorem compact_escapeChar (c : Char) (r : List Char) :
    compact true false (escapeChar c ++ r) = escapeChar c ++ compact true false r := by
  by_cases hcontrol : c.toNat < 32
  · rw [← Char.ofNat_toNat c]
    exact control_compact _ hcontrol r
  by_cases hquote : c = '"'
  · subst hquote
    rfl
  by_cases hescape : c = '\\'
  · subst hescape
    rfl
  · rw [escapeChar_plain hcontrol hquote hescape]
    simp [compact, hquote, hescape]

/-- A quoted text is kept as it is. -/
theorem compact_quoted (s : String) (r : List Char) :
    compact false false (quoted s ++ r) = quoted s ++ compact false false r := by
  have hcontent : ∀ cs : List Char, compact true false (cs.flatMap escapeChar ++ '"' :: r) =
      cs.flatMap escapeChar ++ '"' :: compact false false r := by
    intro cs
    induction cs with
    | nil => rfl
    | cons c cs ih =>
      rw [List.flatMap_cons, List.append_assoc, compact_escapeChar, ih, List.append_assoc]
  simp only [quoted, List.cons_append, List.append_assoc, List.nil_append, compact]
  rw [if_neg Bool.false_ne_true, if_pos trivial, hcontent]

/-- Numbers are solid. -/
theorem solid_of_numeric {c : Char} (h : Numeric c) : Solid c := by
  refine ⟨?_, ?_, ?_⟩ <;> rintro rfl <;> exact absurd h (by decide)

section

variable [SerdeJson]

mutual

/-- Without the blanks outside of strings the pretty text is the compact one. -/
theorem compact_pretty : ∀ (indent : Nat) (j : Json) (r : List Char),
    compact false false (prettyChars indent j ++ r) = chars j ++ compact false false r
  | _, .null, _ => rfl
  | _, .bool true, _ => rfl
  | _, .bool false, _ => rfl
  | _, .int _, r => compact_solid (fun _ hc => solid_of_numeric (intChars_numeric hc)) r
  | _, .float f, r =>
    compact_solid (fun c hc => solid_of_numeric (SerdeJson.floatText_numeric f c hc)) r
  | _, .str s, r => compact_quoted s r
  | _, .arr [], _ => rfl
  | indent, .arr (x :: xs), r => by
    simp only [prettyChars, chars, List.append_assoc, List.cons_append, List.nil_append]
    rw [compact_cons (by decide), compact_newline, compact_pretty (indent + 1) x,
      compact_items (indent + 1) indent xs]
  | _, .obj [], _ => rfl
  | indent, .obj ((k, x) :: xs), r => by
    simp only [prettyChars, chars, List.append_assoc, List.cons_append, List.nil_append]
    rw [compact_cons (by decide), compact_newline, compact_quoted, compact_cons (by decide),
      compact_blank, compact_pretty (indent + 1) x, compact_entries (indent + 1) indent xs]

/-- The rest of an array. -/
theorem compact_items : ∀ (indent outer : Nat) (xs : List Json) (r : List Char),
    compact false false (prettyItems indent xs ++ (newline outer ++ ']' :: r)) =
      charsItems xs ++ compact false false r
  | _, outer, [], r => by
    rw [prettyItems, List.nil_append, compact_newline, compact_cons (by decide)]
    rfl
  | indent, outer, x :: xs, r => by
    simp only [prettyItems, charsItems, List.append_assoc, List.cons_append]
    rw [compact_cons (by decide), compact_newline, compact_pretty indent x,
      compact_items indent outer xs]

/-- The rest of an object. -/
theorem compact_entries : ∀ (indent outer : Nat) (xs : List (String × Json)) (r : List Char),
    compact false false (prettyEntries indent xs ++ (newline outer ++ '\x7d' :: r)) =
      charsEntries xs ++ compact false false r
  | _, outer, [], r => by
    rw [prettyEntries, List.nil_append, compact_newline, compact_cons (by decide)]
    rfl
  | indent, outer, (k, x) :: xs, r => by
    simp only [prettyEntries, charsEntries, List.append_assoc, List.cons_append]
    rw [compact_cons (by decide), compact_newline, compact_quoted, compact_cons (by decide),
      compact_blank, compact_pretty indent x, compact_entries indent outer xs]

end

/-- Documents with the same bytes are the same. -/
theorem toVecPretty_injective {j j' : Json} (h : toVecPretty j = toVecPretty j') : j = j' := by
  have hchars : prettyChars 0 j = prettyChars 0 j' := String.ofList_injective (utf8_injective h)
  have hcompact : ∀ i : Json, i.chars = compact false false (prettyChars 0 i) := by
    intro i
    have hi := compact_pretty 0 i []
    rw [List.append_nil] at hi
    exact (hi.trans (List.append_nil _)).symm
  refine text_injective ?_
  rw [text, text, hcompact j, hcompact j', hchars]

/-- A document is not empty, and closed. -/
theorem closed_toVecPretty (j : Json) : Closed ((toVecPretty j).map byteMark) := by
  refine ⟨fun hnil => ?_, (neutral_pretty 0 j 0).1⟩
  have hempty : toVecPretty j = utf8 "" := List.map_eq_nil_iff.mp hnil
  have hchars : prettyChars 0 j = [] := String.ofList_injective (utf8_injective hempty)
  have hcompact := compact_pretty 0 j []
  rw [hchars] at hcompact
  exact chars_ne_nil j ((hcompact.trans (List.append_nil _)).symm)

end

end AtomrOntology.Json

namespace AtomrOntology

open Json Brackets

/-- What the readers of bytes rely on: `serde_json::from_slice` reads what the printer wrote, and
accepts no text that leaves a bracket or a string open. -/
class JsonReader [SerdeJson] where
  fromSlice : List UInt8 → Except String Json
  fromSlice_pretty : ∀ j, fromSlice (toVecPretty j) = j.reparse.mapError SerdeJson.errorText
  closed_of_fromSlice : ∀ bytes j, fromSlice bytes = .ok j → Closed (bytes.map byteMark)

open Classical in
/-- The reader of what the printer writes, and of nothing else. -/
noncomputable abbrev JsonReader.plain [SerdeJson] : JsonReader where
  fromSlice bytes :=
    if h : ∃ j, toVecPretty j = bytes then h.choose.reparse.mapError SerdeJson.errorText
    else .error "expected value"
  fromSlice_pretty j := by
    have h : ∃ i, toVecPretty i = toVecPretty j := ⟨j, rfl⟩
    rw [dif_pos h, toVecPretty_injective h.choose_spec]
  closed_of_fromSlice bytes j hok := by
    by_cases h : ∃ i, toVecPretty i = bytes
    · obtain ⟨i, rfl⟩ := h
      exact closed_toVecPretty i
    · rw [dif_neg h] at hok
      cases hok

end AtomrOntology
