import AtomrOntology.Core.Bytes

/-!
# Slices of text

A text is a list of characters, addressed by byte offsets. A slice exists if its ends are in
range and between two characters; searching for a character yields such an offset.
-/

namespace AtomrOntology

/-- The bytes of some characters. -/
def byteLength (cs : List Char) : Nat := (cs.map Char.utf8Size).sum

@[simp] theorem byteLength_nil : byteLength [] = 0 := rfl

@[simp] theorem byteLength_cons (c : Char) (cs : List Char) :
    byteLength (c :: cs) = c.utf8Size + byteLength cs := rfl

/-- Texts are together as long as they are. -/
@[simp] theorem byteLength_append (cs ds : List Char) :
    byteLength (cs ++ ds) = byteLength cs + byteLength ds := by
  simp [byteLength]

/-- A text does not have fewer bytes than characters. -/
theorem length_le_byteLength (cs : List Char) : cs.length ≤ byteLength cs := by
  induction cs with
  | nil => exact le_rfl
  | cons c cs ih =>
    have hpos := c.utf8Size_pos
    rw [byteLength_cons, List.length_cons]
    omega

/-- `&s[n..]`. -/
def sliceFrom : Nat → List Char → Option (List Char)
  | 0, cs => some cs
  | _ + 1, [] => none
  | n + 1, c :: cs => if c.utf8Size ≤ n + 1 then sliceFrom (n + 1 - c.utf8Size) cs else none

/-- `&s[..n]`. -/
def sliceTo : Nat → List Char → Option (List Char)
  | 0, _ => some []
  | _ + 1, [] => none
  | n + 1, c :: cs =>
    if c.utf8Size ≤ n + 1 then (sliceTo (n + 1 - c.utf8Size) cs).map (c :: ·) else none

/-- `&s[m..n]`. -/
def slice (m n : Nat) (cs : List Char) : Option (List Char) :=
  if m ≤ n then (sliceFrom m cs).bind (sliceTo (n - m)) else none

/-- `str::find`: the offset of the first character of a kind. -/
def findChar (p : Char → Bool) : List Char → Option Nat
  | [] => none
  | c :: cs => if p c then some 0 else (findChar p cs).map (c.utf8Size + ·)

/-- Cutting between two texts leaves the second. -/
@[simp] theorem sliceFrom_append (front back : List Char) :
    sliceFrom (byteLength front) (front ++ back) = some back := by
  induction front with
  | nil => cases back <;> rfl
  | cons c front ih =>
    obtain ⟨n, hn⟩ := Nat.exists_eq_succ_of_ne_zero c.utf8Size_pos.ne'
    rw [byteLength_cons, hn, Nat.succ_add, List.cons_append, sliceFrom, hn,
      if_pos (by omega)]
    rw [← ih]
    congr 1
    omega

/-- Cutting between two texts leaves the first. -/
@[simp] theorem sliceTo_append (front back : List Char) :
    sliceTo (byteLength front) (front ++ back) = some front := by
  induction front with
  | nil => cases back <;> rfl
  | cons c front ih =>
    obtain ⟨n, hn⟩ := Nat.exists_eq_succ_of_ne_zero c.utf8Size_pos.ne'
    have hrest : n + byteLength front + 1 - (n + 1) = byteLength front := by omega
    rw [byteLength_cons, hn, Nat.succ_add, List.cons_append, sliceTo, hn, if_pos (by omega),
      hrest, ih]
    rfl

/-- A number of bytes can be cut off exactly if it ends a character. -/
theorem sliceTo_eq_some_iff {n : Nat} {cs front : List Char} :
    sliceTo n cs = some front ↔ front <+: cs ∧ byteLength front = n := by
  constructor
  · intro h
    induction cs generalizing n front with
    | nil =>
      cases n with
      | zero => cases h; simp
      | succ n => cases h
    | cons c cs ih =>
      cases n with
      | zero => cases h; simp
      | succ n =>
        rw [sliceTo] at h
        split at h
        · next hle =>
          obtain ⟨front', hfront, rfl⟩ := Option.map_eq_some_iff.mp h
          obtain ⟨hstarts, hlen⟩ := ih hfront
          refine ⟨List.cons_prefix_cons.mpr ⟨rfl, hstarts⟩, ?_⟩
          rw [byteLength_cons]
          omega
        · cases h
  · rintro ⟨⟨back, rfl⟩, rfl⟩
    exact sliceTo_append front back

/-- A text can be cut at an offset exactly if it ends a character. -/
theorem sliceFrom_eq_some_iff {n : Nat} {cs back : List Char} :
    sliceFrom n cs = some back ↔ ∃ front, cs = front ++ back ∧ byteLength front = n := by
  constructor
  · intro h
    induction cs generalizing n with
    | nil =>
      cases n with
      | zero => cases h; exact ⟨[], rfl, rfl⟩
      | succ n => cases h
    | cons c cs ih =>
      cases n with
      | zero => cases h; exact ⟨[], rfl, rfl⟩
      | succ n =>
        rw [sliceFrom] at h
        split at h
        · next hle =>
          obtain ⟨front, rfl, hlen⟩ := ih h
          refine ⟨c :: front, rfl, ?_⟩
          rw [byteLength_cons]
          omega
        · cases h
  · rintro ⟨front, rfl, rfl⟩
    exact sliceFrom_append front back

@[simp] theorem sliceFrom_zero (cs : List Char) : sliceFrom 0 cs = some cs := by
  cases cs <;> rfl

/-- The end of a text that follows is an offset. -/
theorem sliceFrom_add {src front back : List Char} {pos : Nat}
    (h : sliceFrom pos src = some (front ++ back)) :
    sliceFrom (pos + byteLength front) src = some back := by
  obtain ⟨before, rfl, rfl⟩ := sliceFrom_eq_some_iff.mp h
  rw [← byteLength_append, ← List.append_assoc, sliceFrom_append]

/-- The end of a character is an offset. -/
theorem sliceFrom_next {src cs : List Char} {c : Char} {pos : Nat}
    (h : sliceFrom pos src = some (c :: cs)) :
    sliceFrom (pos + byteLength [c]) src = some cs := sliceFrom_add h

/-- An offset into the rest of a text is one into the text. -/
theorem sliceFrom_trans {src rest back : List Char} {pos i : Nat}
    (h : sliceFrom pos src = some rest) (hi : sliceFrom i rest = some back) :
    sliceFrom (pos + i) src = some back := by
  obtain ⟨front, rfl, rfl⟩ := sliceFrom_eq_some_iff.mp hi
  exact sliceFrom_add h

/-- The offset after a character of one byte. -/
theorem sliceFrom_past {src front back : List Char} {sep : Char} {pos : Nat}
    (h : sliceFrom pos src = some (front ++ sep :: back)) (hsep : sep.utf8Size = 1) :
    sliceFrom (pos + (byteLength front + 1)) src = some back := by
  have hlen : byteLength (front ++ [sep]) = byteLength front + 1 := by simp [hsep]
  rw [← hlen]
  apply sliceFrom_add
  rw [h, List.append_assoc, List.singleton_append]

/-- The offset of the rest after one byte. -/
theorem sliceFrom_tail {src back : List Char} {sep : Char} {pos : Nat}
    (h : sliceFrom pos src = some (sep :: back)) (hsep : sep.utf8Size = 1) :
    sliceFrom (pos + 1) src = some back := by
  have hpast : sliceFrom (pos + (byteLength [] + 1)) src = some back := sliceFrom_past h hsep
  rwa [byteLength_nil, Nat.zero_add] at hpast

/-- Slicing between two offsets. -/
theorem slice_append (front mid back : List Char) :
    slice (byteLength front) (byteLength front + byteLength mid) (front ++ (mid ++ back)) =
      some mid := by
  rw [slice, if_pos (Nat.le_add_right _ _), sliceFrom_append, Option.bind_some,
    Nat.add_sub_cancel_left, sliceTo_append]

/-- The characters of a kind in front can be cut off. -/
theorem sliceTo_takeWhile (p : Char → Bool) (cs : List Char) :
    sliceTo (byteLength (cs.takeWhile p)) cs = some (cs.takeWhile p) := by
  have hsplit := sliceTo_append (cs.takeWhile p) (cs.dropWhile p)
  rwa [List.takeWhile_append_dropWhile] at hsplit

/-- The offset after the characters of a kind. -/
theorem sliceFrom_dropWhile {src cs : List Char} {pos : Nat} (p : Char → Bool)
    (h : sliceFrom pos src = some cs) :
    sliceFrom (pos + byteLength (cs.takeWhile p)) src = some (cs.dropWhile p) := by
  apply sliceFrom_add
  rw [h, List.takeWhile_append_dropWhile]

/-- A search stops where the characters of the kind begin. -/
theorem getD_findChar (p : Char → Bool) (cs : List Char) :
    (findChar p cs).getD (byteLength cs) = byteLength (cs.takeWhile (!p ·)) := by
  induction cs with
  | nil => rfl
  | cons c cs ih =>
    rw [findChar]
    by_cases hc : p c = true
    · simp [hc]
    · rw [if_neg hc, List.takeWhile_cons_of_pos (by simpa using hc), byteLength_cons,
        byteLength_cons, ← ih]
      cases findChar p cs <;> rfl

/-- The bytes of a character are those of its encoding. -/
theorem utf8_singleton (c : Char) : utf8 (.singleton c) = String.utf8EncodeChar c := by
  simp [utf8, List.utf8Encode]

/-- Characters are encoded one after another. -/
theorem utf8_ofList_cons (c : Char) (cs : List Char) :
    utf8 (.ofList (c :: cs)) = utf8 (.singleton c) ++ utf8 (.ofList cs) := by
  have hsplit : String.ofList (c :: cs) = .singleton c ++ .ofList cs := by
    rw [← String.toList_inj]
    simp
  rw [hsplit, utf8_append]

/-- An ASCII character is its own byte. -/
theorem utf8_singleton_of_ascii {c : Char} (h : c.toNat < 128) :
    utf8 (.singleton c) = [UInt8.ofNat c.toNat] := by
  have hle : c.toNat ≤ 127 := Nat.le_of_lt_succ h
  rw [utf8_singleton, String.utf8EncodeChar]
  exact if_pos hle

/-- ASCII characters take one byte each. -/
theorem utf8_ofList_of_ascii {cs : List Char} (h : ∀ c ∈ cs, c.toNat < 128) :
    utf8 (.ofList cs) = cs.map fun c => UInt8.ofNat c.toNat := by
  induction cs with
  | nil => rfl
  | cons c cs ih =>
    rw [utf8_ofList_cons, utf8_singleton_of_ascii (h c List.mem_cons_self),
      ih fun d hd => h d (List.mem_cons_of_mem c hd)]
    rfl

/-- A byte of a longer encoding: some bits under a mark. -/
theorem le_toNat_mark (v : Nat) {m mark : Nat} (hm : 0 < m) (hlow : 128 ≤ mark)
    (hhigh : m + mark ≤ 256) : 128 ≤ (UInt8.ofNat (v % m + mark)).toNat := by
  have hbits := Nat.mod_lt v hm
  rw [UInt8.toNat_ofNat_of_lt' (by rw [UInt8.size]; omega)]
  omega

/-- The bytes of other characters are not those of ASCII characters. -/
theorem le_of_mem_utf8_singleton {c : Char} (h : 128 ≤ c.toNat) {b : UInt8}
    (hb : b ∈ utf8 (.singleton c)) : 128 ≤ b.toNat := by
  have hc : ¬c.val.toNat ≤ 127 := Nat.not_le.mpr h
  rw [utf8_singleton, String.utf8EncodeChar] at hb
  simp only [hc, ↓reduceIte] at hb
  split_ifs at hb
  all_goals
    simp only [List.mem_cons, List.not_mem_nil, or_false] at hb
    rcases hb with rfl | rfl | rfl | rfl <;>
      exact le_toNat_mark _ (by decide) (by decide) (by decide)

/-- A text has the bytes of its characters. -/
theorem length_utf8_ofList (cs : List Char) : (utf8 (.ofList cs)).length = byteLength cs := by
  induction cs with
  | nil => rfl
  | cons c cs ih =>
    rw [utf8_ofList_cons, List.length_append, utf8_singleton, String.length_utf8EncodeChar, ih,
      byteLength_cons]

/-- The bytes from an offset on. -/
theorem drop_utf8_of_sliceFrom {input cs : List Char} {i : Nat}
    (h : sliceFrom i input = some cs) :
    (utf8 (.ofList input)).drop i = utf8 (.ofList cs) := by
  obtain ⟨front, rfl, rfl⟩ := sliceFrom_eq_some_iff.mp h
  rw [String.ofList_append, utf8_append, ← length_utf8_ofList, List.drop_left]

/-- A character has a byte. -/
theorem utf8_singleton_ne_nil (c : Char) : utf8 (.singleton c) ≠ [] := by
  have hpos := c.utf8Size_pos
  rw [← String.length_utf8EncodeChar, ← utf8_singleton] at hpos
  exact List.ne_nil_of_length_pos hpos

/-- An ASCII character is told by a byte. -/
theorem eq_of_mem_utf8_singleton {c d : Char} (hd : d.toNat < 128)
    (h : d.toUInt8 ∈ utf8 (.singleton c)) : c = d := by
  have hbyte : d.toUInt8 = UInt8.ofNat d.toNat := rfl
  rw [hbyte] at h
  have hnat : (UInt8.ofNat d.toNat).toNat = d.toNat :=
    UInt8.toNat_ofNat_of_lt' (by rw [UInt8.size]; omega)
  rcases Nat.lt_or_ge c.toNat 128 with hc | hc
  · rw [utf8_singleton_of_ascii hc, List.mem_singleton] at h
    have hval := congrArg UInt8.toNat h
    rw [hnat, UInt8.toNat_ofNat_of_lt' (by rw [UInt8.size]; omega)] at hval
    exact Char.toNat_inj.mp hval.symm
  · have hhigh := le_of_mem_utf8_singleton hc h
    omega

/-- The bytes of the rest at an offset. -/
theorem getElem?_of_sliceFrom {input cs : List Char} {i : Nat}
    (h : sliceFrom i input = some cs) :
    (utf8 (.ofList input))[i]? = (utf8 (.ofList cs)).head? := by
  rw [← List.head?_drop, drop_utf8_of_sliceFrom h]

/-- The byte of an ASCII character at an offset. -/
theorem getElem?_ascii {input cs : List Char} {c : Char} {i : Nat}
    (h : sliceFrom i input = some (c :: cs)) (hc : c.toNat < 128) :
    (utf8 (.ofList input))[i]? = some c.toUInt8 := by
  rw [getElem?_of_sliceFrom h, utf8_ofList_cons, utf8_singleton_of_ascii hc]
  rfl

/-- An ASCII character is told by its byte. -/
theorem getElem?_eq_ascii_iff {input cs : List Char} {c d : Char} {i : Nat}
    (h : sliceFrom i input = some (c :: cs)) (hd : d.toNat < 128) :
    (utf8 (.ofList input))[i]? = some d.toUInt8 ↔ c = d := by
  constructor
  · intro hbyte
    obtain ⟨b, more, hb⟩ := List.exists_cons_of_ne_nil (utf8_singleton_ne_nil c)
    rw [getElem?_of_sliceFrom h, utf8_ofList_cons, hb] at hbyte
    have hmem : d.toUInt8 ∈ utf8 (.singleton c) := by
      rw [hb, ← Option.some.inj hbyte]
      exact List.mem_cons_self
    exact eq_of_mem_utf8_singleton hd hmem
  · rintro rfl
    exact getElem?_ascii h hd

/-- The rest after a given text. -/
def stripPrefix (pre cs : List Char) : Option (List Char) :=
  if pre <+: cs then some (cs.drop pre.length) else none

/-- A prefix can be stripped. -/
theorem stripPrefix_append (pre rest : List Char) : stripPrefix pre (pre ++ rest) = some rest := by
  rw [stripPrefix, if_pos (List.prefix_append pre rest), List.drop_left]

/-- A prefix is stripped exactly if it stands in front of the rest. -/
theorem stripPrefix_eq_some {pre cs rest : List Char} :
    stripPrefix pre cs = some rest ↔ cs = pre ++ rest := by
  constructor
  · intro h
    unfold stripPrefix at h
    split at h
    · next hpre =>
      obtain ⟨rest', rfl⟩ := hpre
      rw [List.drop_left] at h
      rw [Option.some.inj h]
    · cases h
  · rintro rfl
    exact stripPrefix_append pre rest

/-- A prefix cannot be stripped exactly if it does not stand in front. -/
theorem stripPrefix_eq_none_iff {pre cs : List Char} :
    stripPrefix pre cs = none ↔ ¬pre <+: cs := by
  rw [stripPrefix]
  split
  · next h => simp [h]
  · next h => simp [h]

/-- The offset after a prefix. -/
theorem sliceFrom_of_stripPrefix {src pre cs rest : List Char} {pos : Nat}
    (h : sliceFrom pos src = some cs) (hpre : stripPrefix pre cs = some rest) :
    sliceFrom (pos + byteLength pre) src = some rest := by
  apply sliceFrom_add
  rw [h, stripPrefix_eq_some.mp hpre]

/-- `str::split_once` at a character. -/
def splitOnce (sep : Char) : List Char → Option (List Char × List Char)
  | [] => none
  | c :: rest => if c = sep then some ([], rest)
    else (splitOnce sep rest).map fun parts => (c :: parts.1, parts.2)

/-- The first separator splits. -/
theorem splitOnce_append {sep : Char} {cs : List Char} (rest : List Char) (h : sep ∉ cs) :
    splitOnce sep (cs ++ sep :: rest) = some (cs, rest) := by
  induction cs with
  | nil => simp [splitOnce]
  | cons c cs ih =>
    rw [List.mem_cons, not_or] at h
    rw [List.cons_append, splitOnce, if_neg (Ne.symm h.1), ih h.2]
    rfl

/-- What a split returns surrounds the first separator. -/
theorem splitOnce_some {sep : Char} {cs : List Char} {parts : List Char × List Char}
    (h : splitOnce sep cs = some parts) : sep ∉ parts.1 ∧ cs = parts.1 ++ sep :: parts.2 := by
  induction cs generalizing parts with
  | nil => cases h
  | cons c cs ih =>
    rw [splitOnce] at h
    by_cases hc : c = sep
    · rw [if_pos hc] at h
      cases h
      exact ⟨List.not_mem_nil, by rw [hc]; rfl⟩
    · rw [if_neg hc] at h
      obtain ⟨parts', hparts, rfl⟩ := Option.map_eq_some_iff.mp h
      obtain ⟨hsep, hcs⟩ := ih hparts
      refine ⟨?_, congrArg (c :: ·) hcs⟩
      rw [List.mem_cons, not_or]
      exact ⟨Ne.symm hc, hsep⟩

/-- Searching for a character is splitting at it. -/
theorem findChar_eq_splitOnce (sep : Char) (cs : List Char) :
    findChar (· == sep) cs = (splitOnce sep cs).map fun parts => byteLength parts.1 := by
  induction cs with
  | nil => rfl
  | cons c cs ih =>
    rw [findChar, splitOnce]
    by_cases hc : c = sep
    · simp [hc]
    · rw [if_neg (by simpa using hc), if_neg hc, ih, Option.map_map, Option.map_map]
      rfl

/-- What stands before a separator can be cut off. -/
theorem sliceTo_of_splitOnce {sep : Char} {cs : List Char} {parts : List Char × List Char}
    (h : splitOnce sep cs = some parts) : sliceTo (byteLength parts.1) cs = some parts.1 := by
  rw [(splitOnce_some h).2, sliceTo_append]

/-- The offset after a separator. -/
theorem sliceFrom_of_splitOnce {src cs : List Char} {sep : Char} {pos : Nat}
    {parts : List Char × List Char} (hcs : sliceFrom pos src = some cs)
    (h : splitOnce sep cs = some parts) (hsep : sep.utf8Size = 1) :
    sliceFrom (pos + (byteLength parts.1 + 1)) src = some parts.2 := by
  apply sliceFrom_past _ hsep
  rw [hcs, (splitOnce_some h).2]

section

variable (opening : Char) {closing : Char} {body inner rest : List Char}

/-- A text in brackets is found, cut out and skipped. -/
theorem bracketed (hne : opening ≠ closing) (hopening : opening.utf8Size = 1)
    (hclosing : closing.utf8Size = 1) (h : splitOnce closing body = some (inner, rest)) :
    findChar (· == closing) (opening :: body) = some (1 + byteLength inner) ∧
      slice 1 (1 + byteLength inner) (opening :: body) = some inner ∧
        sliceFrom (1 + byteLength inner + 1) (opening :: body) = some rest := by
  obtain ⟨-, hbody⟩ := splitOnce_some h
  have hlen : byteLength [opening] = 1 := by simp [hopening]
  refine ⟨?_, ?_, ?_⟩
  · rw [findChar_eq_splitOnce, splitOnce, if_neg hne, h, Option.map_some, Option.map_some,
      byteLength_cons, hopening]
  · have hslice := slice_append [opening] inner (closing :: rest)
    rwa [hlen, List.singleton_append, ← hbody] at hslice
  · have htail : sliceFrom 1 (opening :: body) = some body := by
      have happend := sliceFrom_append [opening] body
      rwa [hlen, List.singleton_append] at happend
    exact sliceFrom_of_splitOnce htail h hclosing

/-- Brackets that are not closed. -/
theorem not_bracketed (hne : opening ≠ closing) (h : splitOnce closing body = none) :
    findChar (· == closing) (opening :: body) = none := by
  rw [findChar_eq_splitOnce, splitOnce, if_neg hne, h]
  rfl

end

end AtomrOntology
