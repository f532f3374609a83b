import AtomrOntology.Core.Slices
import AtomrOntology.Core.Text
import AtomrOntology.Logic.Segments

/-!
# Requests on a socket

The server reads a request in the parts in which it arrives: the headers up to the first
empty line, then as many bytes as they announce. The limit on the size of the headers is
tested between two reads, so a request at the limit may or may not be read.
-/

namespace AtomrOntology

namespace Remote

/-- Why a request is not read. -/
inductive RemoteError where
  | closedBeforeHeaders
  | headersExceeded
  | nonUtf8Headers
  | missingRequestLine
  | missingMethod
  | missingPath
  | badContentLength
  | bodyTruncated
deriving DecidableEq, Repr

structure ParsedRequest where
  method : String
  path : String
  body : List UInt8
deriving DecidableEq, Repr

/-- `"\r\n\r\n"`. -/
def headerTerminator : List UInt8 := [13, 10, 13, 10]

def findHeaderTerminator (buf : List UInt8) : Option Nat := findInfix headerTerminator buf

/-- `str::from_utf8`. -/
def fromUtf8 (bytes : List UInt8) : Option String := String.fromUTF8? ⟨bytes.toArray⟩

/-- `split("\r\n")`. -/
def splitCrlf : List Char → List (List Char)
  | [] => [[]]
  | '\r' :: '\n' :: rest => [] :: splitCrlf rest
  | c :: rest => (splitCrlf rest).modifyHead (c :: ·)

/-- `split_ascii_whitespace`. -/
def splitAsciiWhitespace (cs : List Char) : List (List Char) :=
  (cs.splitOnP isAsciiWhitespace).filter fun word => !word.isEmpty

/-- `parse::<usize>`. -/
def parseUsize (cs : List Char) : Option Nat :=
  let digits := if cs.head? = some '+' then cs.tail else cs
  if digits.isEmpty || !digits.all isAsciiDigit then none
  else if number digits < 2 ^ 64 then some (number digits) else none

/-- The value of a `Content-Length` line. -/
def lengthValue (line : List Char) : Option (List Char) :=
  (splitOnce ':' line).bind fun parts =>
    if (trimChars parts.1).map toAsciiLower = "content-length".toList then some (trimChars parts.2)
    else none

/-- One header line: the last length that is given counts. -/
def readHeaderLine (contentLength : Nat) (line : List Char) : Except RemoteError Nat :=
  match lengthValue line with
  | some value =>
    match parseUsize value with
    | some n => .ok n
    | none => .error .badContentLength
  | none => .ok contentLength

/-- The method, the path and the content length. -/
def parseHead (head : List UInt8) : Except RemoteError (String × String × Nat) :=
  match fromUtf8 head with
  | none => .error .nonUtf8Headers
  | some text =>
    match splitCrlf text.toList with
    | [] => .error .missingRequestLine
    | requestLine :: lines =>
      match splitAsciiWhitespace requestLine with
      | [] => .error .missingMethod
      | [_] => .error .missingPath
      | method :: path :: _ => do
        let contentLength ← lines.foldlM readHeaderLine 0
        return (.ofList method, .ofList path, contentLength)

/-- Read until the headers have arrived: where they end, what was read, and the reads left.
A read of no bytes is the end of the stream. -/
def readHeaders : List (List UInt8) → List UInt8 →
    Except RemoteError (Nat × List UInt8 × List (List UInt8))
  | [], _ => .error .closedBeforeHeaders
  | chunk :: reads, buf =>
    if chunk.isEmpty then .error .closedBeforeHeaders
    else match findHeaderTerminator (buf ++ chunk) with
      | some headerEnd => .ok (headerEnd, buf ++ chunk, reads)
      | none =>
        if 64 * 1024 < (buf ++ chunk).length then .error .headersExceeded
        else readHeaders reads (buf ++ chunk)

/-- Read until the body has arrived. -/
def readBody (contentLength : Nat) :
    List (List UInt8) → List UInt8 → Except RemoteError (List UInt8)
  | [], body => if body.length < contentLength then .error .bodyTruncated
    else .ok (body.take contentLength)
  | chunk :: reads, body =>
    if body.length < contentLength then
      if chunk.isEmpty then .error .bodyTruncated
      else readBody contentLength reads (body ++ chunk)
    else .ok (body.take contentLength)

/-- Read a request from a socket that delivers these reads. -/
def readRequest (reads : List (List UInt8)) : Except RemoteError ParsedRequest := do
  let (headerEnd, buf, reads) ← readHeaders reads []
  let (method, path, contentLength) ← parseHead (buf.take headerEnd)
  let body ← readBody contentLength reads (buf.drop (headerEnd + 4))
  return ⟨method, path, body⟩

/-- The first empty line of the stream ends the headers. -/
def EndsHead (bytes head rest : List UInt8) : Prop :=
  bytes = head ++ headerTerminator ++ rest ∧ ∀ j < head.length, ¬headerTerminator <+: bytes.drop j

/-- Headers with a method, a path and lengths that are numbers, the last of which is announced. -/
def Announces (head : List UInt8) (method path : String) (contentLength : Nat) : Prop :=
  ∃ (text : String) (requestLine : List Char) (lines words : List (List Char)) (values : List Nat),
    utf8 text = head ∧ splitCrlf text.toList = requestLine :: lines ∧
    splitAsciiWhitespace requestLine = method.toList :: path.toList :: words ∧
    (lines.filterMap lengthValue).map parseUsize = values.map some ∧
    contentLength = values.getLastD 0

/-- A request at the start of a stream, with the length of its headers. -/
def HasRequest (bytes : List UInt8) (headerEnd : Nat) (request : ParsedRequest) : Prop :=
  ∃ head rest, head.length = headerEnd ∧ EndsHead bytes head rest ∧
    Announces head request.method request.path request.body.length ∧ request.body <+: rest

/-- Bytes are a text if they encode it. -/
theorem fromUtf8_eq_some_iff {bytes : List UInt8} {text : String} :
    fromUtf8 bytes = some text ↔ utf8 text = bytes := by
  have hbytes : utf8 text = bytes ↔ text.toByteArray = ⟨bytes.toArray⟩ := by
    rw [utf8, ByteArray.ext_iff, ← Array.toList_inj]
  rw [hbytes, fromUtf8, String.fromUTF8?]
  constructor
  · intro h
    split at h
    · obtain rfl := Option.some.inj h
      rfl
    · cases h
  · intro h
    rw [← h, dif_pos text.isValidUTF8]
    rfl

/-- The head ends at the first terminator. -/
theorem findHeaderTerminator_eq_some_iff {bytes : List UInt8} {i : Nat} :
    findHeaderTerminator bytes = some i ↔
      ∃ head rest, head.length = i ∧ EndsHead bytes head rest := by
  rw [findHeaderTerminator, findInfix_eq_some_iff]
  constructor
  · intro h
    obtain ⟨hle, ⟨rest, hrest⟩, hfirst⟩ := h
    have hlength : (bytes.take i).length = i := List.length_take_of_le hle
    refine ⟨bytes.take i, rest, hlength, ?_, fun j hj => hfirst j (hlength ▸ hj)⟩
    rw [List.append_assoc, hrest, List.take_append_drop]
  · intro h
    obtain ⟨head, rest, rfl, rfl, hfirst⟩ := h
    refine ⟨by simp, ?_, hfirst⟩
    rw [List.append_assoc, List.drop_left]
    exact List.prefix_append _ _

/-- The last length announced counts, if all of them are numbers. -/
theorem foldlM_readHeaderLine {lines : List (List Char)} {start n : Nat} :
    lines.foldlM readHeaderLine start = .ok n ↔
      ∃ values : List Nat, (lines.filterMap lengthValue).map parseUsize = values.map some ∧
        n = values.getLastD start := by
  induction lines generalizing start with
  | nil =>
    constructor
    · intro h
      exact ⟨[], rfl, (Except.ok.inj h).symm⟩
    · intro h
      obtain ⟨values, hvalues, rfl⟩ := h
      obtain rfl := List.map_eq_nil_iff.mp hvalues.symm
      rfl
  | cons line lines ih =>
    cases hline : lengthValue line with
    | none =>
      have hstep : readHeaderLine start line = .ok start := by rw [readHeaderLine, hline]
      rw [List.filterMap_cons_none hline, List.foldlM_cons, hstep]
      exact ih
    | some value =>
      rw [List.filterMap_cons_some hline, List.map_cons, List.foldlM_cons]
      cases hvalue : parseUsize value with
      | none =>
        have hstep : readHeaderLine start line = .error .badContentLength := by
          simp only [readHeaderLine, hline, hvalue]
        rw [hstep]
        constructor
        · intro h
          cases h
        · intro h
          obtain ⟨values, hvalues, -⟩ := h
          cases values with
          | nil => cases hvalues
          | cons m values => cases (List.cons.inj hvalues).1
      | some m =>
        have hstep : readHeaderLine start line = .ok m := by
          simp only [readHeaderLine, hline, hvalue]
        rw [hstep]
        constructor
        · intro h
          obtain ⟨values, hvalues, hn⟩ := ih.mp h
          exact ⟨m :: values, by rw [hvalues, List.map_cons], hn.trans (List.getLastD_cons ..).symm⟩
        · intro h
          obtain ⟨values, hvalues, hn⟩ := h
          cases values with
          | nil => cases hvalues
          | cons m' values =>
            rw [List.map_cons, List.cons.injEq, Option.some.injEq] at hvalues
            obtain ⟨rfl, hvalues⟩ := hvalues
            exact ih.mpr ⟨values, hvalues, hn.trans (List.getLastD_cons ..)⟩

/-- A head is read as what it announces. -/
theorem parseHead_eq_ok_iff {head : List UInt8} {method path : String} {n : Nat} :
    parseHead head = .ok (method, path, n) ↔ Announces head method path n := by
  constructor
  · intro h
    unfold parseHead at h
    cases htext : fromUtf8 head with
    | none => simp [htext] at h
    | some text =>
      cases hlines : splitCrlf text.toList with
      | nil => simp [htext, hlines] at h
      | cons requestLine lines =>
        match hwords : splitAsciiWhitespace requestLine with
        | [] => simp [htext, hlines, hwords] at h
        | [word] => simp [htext, hlines, hwords] at h
        | m :: p :: words =>
          cases hlength : lines.foldlM readHeaderLine 0 with
          | error e => simp [htext, hlines, hwords, hlength] at h
          | ok k =>
            simp only [htext, hlines, hwords, hlength] at h
            obtain ⟨hm, hp, rfl⟩ : String.ofList m = method ∧ String.ofList p = path ∧ k = n := by
              simpa using h
            obtain ⟨values, hvalues, hk⟩ := foldlM_readHeaderLine.mp hlength
            refine ⟨text, requestLine, lines, words, values, fromUtf8_eq_some_iff.mp htext, hlines,
              ?_, hvalues, hk⟩
            rw [hwords, ← hm, ← hp, String.toList_ofList, String.toList_ofList]
  · intro h
    obtain ⟨text, requestLine, lines, words, values, htext, hlines, hwords, hvalues, hn⟩ := h
    have hlength := foldlM_readHeaderLine.mpr ⟨values, hvalues, hn⟩
    rw [parseHead, fromUtf8_eq_some_iff.mpr htext]
    simp only [hlines, hwords, hlength]
    simp

/-- The headers of a stream are read unless a read stops behind the limit and before their end. -/
theorem readHeaders_cases {reads : List (List UInt8)} {buf : List UInt8}
    (hreads : ∀ read ∈ reads, read ≠ []) (hbuf : findHeaderTerminator buf = none)
    (hlimit : buf.length ≤ 64 * 1024) :
    (∃ headerEnd front back, readHeaders reads buf = .ok (headerEnd, front, back) ∧
      findHeaderTerminator (buf ++ reads.flatten) = some headerEnd ∧
      headerEnd + 4 ≤ front.length ∧ front ++ back.flatten = buf ++ reads.flatten ∧
      (∀ read ∈ back, read ≠ []) ∧ Clears (64 * 1024) (headerEnd + 4) buf.length reads) ∨
    (∃ e, readHeaders reads buf = .error e) ∧ ∀ headerEnd,
      findHeaderTerminator (buf ++ reads.flatten) = some headerEnd →
        ¬Clears (64 * 1024) (headerEnd + 4) buf.length reads := by
  induction reads generalizing buf with
  | nil =>
    refine Or.inr ⟨⟨_, rfl⟩, fun headerEnd hfound => ?_⟩
    rw [List.flatten_nil, List.append_nil, hbuf] at hfound
    cases hfound
  | cons chunk reads ih =>
    have hchunk : chunk.isEmpty = false :=
      List.isEmpty_eq_false_iff.mpr (hreads chunk List.mem_cons_self)
    have hrest : ∀ read ∈ reads, read ≠ [] := fun r hr => hreads r (List.mem_cons_of_mem chunk hr)
    rw [readHeaders, hchunk, List.flatten_cons, ← List.append_assoc]
    simp only [Bool.false_eq_true, ↓reduceIte]
    cases hfound : findHeaderTerminator (buf ++ chunk) with
    | some headerEnd =>
      have hend : headerEnd + 4 ≤ (buf ++ chunk).length := findInfix_le hfound
      refine Or.inl ⟨headerEnd, _, _, rfl, findInfix_append hfound, hend, rfl, hrest, ?_⟩
      rw [List.length_append] at hend
      exact ⟨fun _ => hend, clears_of_reached hend⟩
    | none =>
      have hlate :
        ∀ headerEnd, findHeaderTerminator (buf ++ chunk ++ reads.flatten) = some headerEnd →
          (buf ++ chunk).length < headerEnd + 4 := by
        intro headerEnd hlater
        by_contra hle
        have hearly := findInfix_front hlater (Nat.le_of_not_lt hle)
        rw [findHeaderTerminator, hearly] at hfound
        cases hfound
      by_cases hover : 64 * 1024 < (buf ++ chunk).length
      · simp only [if_pos hover]
        refine Or.inr ⟨⟨_, rfl⟩, fun headerEnd hlater hclears => ?_⟩
        have hbehind := hlate headerEnd hlater
        rw [List.length_append] at hover hbehind
        have hreached := hclears.1 hover
        omega
      · simp only [if_neg hover]
        have hstep : ∀ headerEnd, Clears (64 * 1024) (headerEnd + 4) buf.length (chunk :: reads) ↔
            Clears (64 * 1024) (headerEnd + 4) (buf ++ chunk).length reads := by
          intro headerEnd
          rw [Clears, List.length_append]
          rw [List.length_append] at hover
          exact and_iff_right fun hlimit => absurd hlimit hover
        simp only [hstep]
        exact ih hrest hfound (Nat.le_of_not_lt hover)

/-- A body is read if the stream is long enough. -/
theorem readBody_eq {n : Nat} {reads : List (List UInt8)} {body : List UInt8}
    (hreads : ∀ read ∈ reads, read ≠ []) : readBody n reads body =
      if n ≤ (body ++ reads.flatten).length then .ok ((body ++ reads.flatten).take n)
      else .error .bodyTruncated := by
  induction reads generalizing body with
  | nil =>
    rw [readBody, List.flatten_nil, List.append_nil]
    by_cases h : body.length < n
    · rw [if_pos h, if_neg (Nat.not_le.mpr h)]
    · rw [if_neg h, if_pos (Nat.le_of_not_lt h)]
  | cons chunk reads ih =>
    have hchunk : chunk.isEmpty = false :=
      List.isEmpty_eq_false_iff.mpr (hreads chunk List.mem_cons_self)
    rw [readBody, hchunk]
    by_cases h : body.length < n
    · simp only [if_pos h, Bool.false_eq_true, ↓reduceIte]
      rw [ih fun r hr => hreads r (List.mem_cons_of_mem chunk hr), List.flatten_cons,
        List.append_assoc]
    · have hle : n ≤ body.length := Nat.le_of_not_lt h
      have hlong : n ≤ (body ++ (chunk :: reads).flatten).length := by
        rw [List.length_append]
        omega
      rw [if_neg h, if_pos hlong, List.take_append_of_le_length hle]

/-- The terminator takes four bytes. -/
theorem EndsHead.length_le {bytes head rest : List UInt8} (h : EndsHead bytes head rest) :
    head.length + 4 ≤ bytes.length := by
  rw [h.1, List.length_append, List.length_append]
  exact Nat.le_add_right _ _

/-- There is one place where the headers end. -/
theorem EndsHead.unique {bytes head rest head' rest' : List UInt8} (h : EndsHead bytes head rest)
    (h' : EndsHead bytes head' rest') : head = head' ∧ rest = rest' := by
  have hfound := findHeaderTerminator_eq_some_iff.mpr ⟨head, rest, rfl, h⟩
  have hfound' := findHeaderTerminator_eq_some_iff.mpr ⟨head', rest', rfl, h'⟩
  have hlength : head.length = head'.length := Option.some.inj (hfound.symm.trans hfound')
  have hsplit : head ++ (headerTerminator ++ rest) = head' ++ (headerTerminator ++ rest') := by
    rw [← List.append_assoc, ← List.append_assoc, ← h.1, ← h'.1]
  obtain ⟨hhead, hrest⟩ := List.append_inj hsplit hlength
  exact ⟨hhead, List.append_cancel_left hrest⟩

section Cut

variable {size : Nat} {bytes : List UInt8} {reads : List (List UInt8)} {request : ParsedRequest}

/-- A request is read exactly when no read stops behind the limit and before the end of the
headers. -/
theorem readRequest_eq_ok_iff (hcuts : Cuts size bytes reads) : readRequest reads = .ok request ↔
    ∃ headerEnd, HasRequest bytes headerEnd request ∧
      Clears (64 * 1024) (headerEnd + 4) 0 reads := by
  have hreads : ∀ read ∈ reads, read ≠ [] := fun read hread => (hcuts.bounds read hread).1
  have hcases := @readHeaders_cases reads [] hreads rfl (Nat.zero_le _)
  rw [List.nil_append, hcuts.flatten] at hcases
  rcases hcases with ⟨headerEnd, front, back, hheaders, hfound, hend, hwhole, hback, hclears⟩ |
    ⟨⟨e, hheaders⟩, hmissed⟩
  · obtain ⟨head, rest, rfl, hends⟩ := findHeaderTerminator_eq_some_iff.mp hfound
    obtain ⟨mid, rfl⟩ : head ++ headerTerminator <+: front :=
      List.prefix_of_prefix_length_le ⟨rest, hends.1.symm⟩ ⟨back.flatten, hwhole⟩
        (by rw [List.length_append]; exact hend)
    have hrest : mid ++ back.flatten = rest := by
      rw [hends.1, List.append_assoc] at hwhole
      exact List.append_cancel_left hwhole
    have hhead : (head ++ headerTerminator ++ mid).take head.length = head := by
      rw [List.append_assoc, List.take_left]
    have hmid : (head ++ headerTerminator ++ mid).drop (head.length + 4) = mid :=
      List.drop_left' (List.length_append ..)
    rw [readRequest, hheaders]
    change (parseHead ((head ++ headerTerminator ++ mid).take head.length) >>= fun parsed =>
      readBody parsed.2.2 back ((head ++ headerTerminator ++ mid).drop (head.length + 4)) >>=
        fun body => pure ⟨parsed.1, parsed.2.1, body⟩) = .ok request ↔ _
    rw [hhead, hmid]
    constructor
    · intro h
      cases hparse : parseHead head with
      | error e => rw [hparse] at h; cases h
      | ok parsed =>
        obtain ⟨method, path, n⟩ := parsed
        have hread := @readBody_eq n back mid hback
        rw [hrest] at hread
        by_cases hlong : n ≤ rest.length
        · rw [if_pos hlong] at hread
          have hrequest : ⟨method, path, rest.take n⟩ = request := by
            rw [hparse] at h
            change (readBody n back mid >>= fun body => pure ⟨method, path, body⟩) =
              .ok request at h
            rw [hread] at h
            exact Except.ok.inj h
          subst hrequest
          refine ⟨head.length, ⟨head, rest, rfl, hends, ?_, List.take_prefix n rest⟩, hclears⟩
          rw [List.length_take_of_le hlong]
          exact parseHead_eq_ok_iff.mp hparse
        · rw [if_neg hlong] at hread
          rw [hparse] at h
          change (readBody n back mid >>= fun body => pure ⟨method, path, body⟩) = .ok request at h
          rw [hread] at h
          cases h
    · intro h
      obtain ⟨headerEnd, ⟨head', rest', -, hends', hannounces, hbody⟩, -⟩ := h
      obtain ⟨rfl, rfl⟩ := hends.unique hends'
      have hread := @readBody_eq request.body.length back mid hback
      rw [hrest, if_pos hbody.length_le, ← List.prefix_iff_eq_take.mp hbody] at hread
      rw [parseHead_eq_ok_iff.mpr hannounces]
      change (readBody request.body.length back mid >>= fun body =>
        pure ⟨request.method, request.path, body⟩) = .ok request
      rw [hread]
      rfl
  · have hnot : ¬∃ headerEnd, HasRequest bytes headerEnd request ∧
        Clears (64 * 1024) (headerEnd + 4) 0 reads := by
      intro h
      obtain ⟨headerEnd, ⟨head, rest, hlength, hends, -, -⟩, hclears⟩ := h
      exact hmissed headerEnd (findHeaderTerminator_eq_some_iff.mpr ⟨head, rest, hlength, hends⟩)
        hclears
    refine iff_of_false ?_ hnot
    rw [readRequest, hheaders]
    intro h
    cases h

end Cut

/-- The reads that can deliver a stream: the server reads up to 4096 bytes at once. -/
abbrev Reads (bytes : List UInt8) (reads : List (List UInt8)) : Prop := Cuts 4096 bytes reads

/-- Whatever the reads, the same request is read or none, and what is read is a request of the
stream with a body as long as announced. -/
structure SegmentationFree (bytes : List UInt8) : Prop where
  same : ∀ reads others, Reads bytes reads → Reads bytes others →
    ∀ request, readRequest reads = .ok request ↔ readRequest others = .ok request
  exact : ∀ reads request, Reads bytes reads → readRequest reads = .ok request →
    ∃ headerEnd, HasRequest bytes headerEnd request

/-- The headers, with the empty line, are at most one byte longer than the limit, or longer by
more than one read. -/
def OffLimit (headerEnd : Nat) : Prop :=
  headerEnd + 4 ≤ 64 * 1024 + 1 ∨ 64 * 1024 + 4096 < headerEnd + 4

/-- Whether a request is read in time does not depend on the reads exactly if its head is off the
limit. -/
theorem clears_agree_of_hasRequest {bytes : List UInt8} {headerEnd : Nat} {request : ParsedRequest}
    (h : HasRequest bytes headerEnd request) :
    (∀ reads others, Reads bytes reads → Reads bytes others →
      (Clears (64 * 1024) (headerEnd + 4) 0 reads ↔ Clears (64 * 1024) (headerEnd + 4) 0 others)) ↔
    OffLimit headerEnd := by
  obtain ⟨head, rest, rfl, hends, -, -⟩ := h
  exact clears_agree_iff hends.length_le (by decide)

/-- A request too close behind the limit is read or not, depending on the reads. -/
theorem not_segmentationFree {bytes : List UInt8} {headerEnd : Nat} {request : ParsedRequest}
    (h : HasRequest bytes headerEnd request) (hnear : ¬OffLimit headerEnd) :
    ¬SegmentationFree bytes := by
  intro hfree
  refine hnear ((clears_agree_of_hasRequest h).mp fun reads others hreads hothers => ?_)
  have hclears : ∀ rs, Reads bytes rs →
      (readRequest rs = .ok request ↔ Clears (64 * 1024) (headerEnd + 4) 0 rs) := by
    intro rs hrs
    rw [readRequest_eq_ok_iff hrs]
    constructor
    · intro hread
      obtain ⟨headerEnd', ⟨head', rest', rfl, hends', -, -⟩, hcl⟩ := hread
      obtain ⟨head, rest, rfl, hends, -, -⟩ := h
      rwa [(hends.unique hends').1]
    · intro hcl
      exact ⟨headerEnd, h, hcl⟩
  rw [← hclears reads hreads, ← hclears others hothers]
  exact hfree.same reads others hreads hothers request

/-- What is read of a stream depends on the reads exactly when the stream starts with a request
whose headers end close behind the limit. -/
theorem segmentationFree_iff (bytes : List UInt8) : SegmentationFree bytes ↔
    ∀ headerEnd request, HasRequest bytes headerEnd request → OffLimit headerEnd := by
  constructor
  · intro hfree headerEnd request h
    by_contra hnear
    exact not_segmentationFree h hnear hfree
  · intro hoff
    refine ⟨fun reads others hreads hothers request => ?_, fun reads request hreads hread => ?_⟩
    · rw [readRequest_eq_ok_iff hreads, readRequest_eq_ok_iff hothers]
      refine exists_congr fun headerEnd => and_congr_right fun h => ?_
      exact (clears_agree_of_hasRequest h).mpr (hoff headerEnd request h) reads others
        hreads hothers
    · obtain ⟨headerEnd, h, -⟩ := (readRequest_eq_ok_iff hreads).mp hread
      exact ⟨headerEnd, h⟩

/-- A path of so many letters. -/
private def lettersPath (n : Nat) : List Char := '/' :: List.replicate n 'a'

private def pathLine (n : Nat) : List Char := ['G', 'E', 'T'] ++ ' ' :: lettersPath n

private theorem mem_pathLine {n : Nat} {c : Char} (h : c ∈ pathLine n) :
    c ∈ ['G', 'E', 'T', ' ', '/', 'a'] := by
  simp only [pathLine, lettersPath, List.mem_append, List.mem_cons, List.mem_replicate] at h
  simp only [List.mem_cons]
  tauto

private theorem utf8_pathLine (n : Nat) :
    utf8 (.ofList (pathLine n)) = (pathLine n).map fun c => UInt8.ofNat c.toNat := by
  have hascii : ∀ c ∈ ['G', 'E', 'T', ' ', '/', 'a'], c.toNat < 128 := by simp
  exact utf8_ofList_of_ascii fun c hc => hascii c (mem_pathLine hc)

private theorem length_pathLine (n : Nat) : (pathLine n).length = n + 5 := by
  simp [pathLine, lettersPath]

private theorem splitCrlf_line {cs : List Char} (h : ∀ c ∈ cs, c ≠ '\r') : splitCrlf cs = [cs] := by
  induction cs with
  | nil => rfl
  | cons c cs ih =>
    have hc : c ≠ '\r' := h c List.mem_cons_self
    have hsplit : splitCrlf (c :: cs) = (splitCrlf cs).modifyHead (c :: ·) := by
      rw [splitCrlf.eq_def]
      split
      · contradiction
      · rename_i heq
        exact absurd (List.cons.inj heq).1 hc
      · rename_i heq
        obtain ⟨rfl, rfl⟩ := List.cons.inj heq
        rfl
    rw [hsplit, ih fun d hd => h d (List.mem_cons_of_mem c hd)]
    rfl

private theorem splitAsciiWhitespace_pathLine (n : Nat) :
    splitAsciiWhitespace (pathLine n) = [['G', 'E', 'T'], lettersPath n] := by
  have hpath : ∀ c ∈ lettersPath n, isAsciiWhitespace c = false := by
    intro c hc
    rcases List.mem_cons.mp hc with rfl | hc
    · decide
    · obtain rfl := List.eq_of_mem_replicate hc
      decide
  rw [splitAsciiWhitespace, pathLine, List.splitOnP_append_cons_of_forall_mem
    (by simp [isAsciiWhitespace]) ' '
    (by decide), List.splitOnP_eq_singleton hpath]
  rfl

private theorem announces_pathLine (n : Nat) :
    Announces (utf8 (.ofList (pathLine n))) "GET" (.ofList (lettersPath n)) 0 := by
  refine ⟨.ofList (pathLine n), pathLine n, [], [], [], rfl, ?_, ?_, rfl, rfl⟩
  · rw [String.toList_ofList]
    apply splitCrlf_line
    have hletters : ∀ c ∈ ['G', 'E', 'T', ' ', '/', 'a'], c ≠ '\r' := by simp
    exact fun c hc => hletters c (mem_pathLine hc)
  · simp [splitAsciiWhitespace_pathLine]

/-- The headers end at the first carriage return, if it starts an empty line. -/
theorem endsHead_of_not_mem {head : List UInt8} (h : 13 ∉ head) :
    EndsHead (head ++ headerTerminator) head [] := by
  refine ⟨(List.append_nil _).symm, fun j hj hprefix => ?_⟩
  obtain ⟨rest, hrest⟩ := hprefix
  rw [List.drop_append_of_le_length hj.le, List.drop_eq_getElem_cons hj] at hrest
  exact h ((List.cons.inj hrest).1 ▸ List.getElem_mem hj)

private theorem hasRequest_pathLine (n : Nat) :
    HasRequest (utf8 (.ofList (pathLine n)) ++ headerTerminator) (n + 5)
      ⟨"GET", .ofList (lettersPath n), []⟩ := by
  have hletters : ∀ c ∈ ['G', 'E', 'T', ' ', '/', 'a'], UInt8.ofNat c.toNat ≠ 13 := by
    simp
  refine ⟨_, [], ?_, endsHead_of_not_mem ?_, announces_pathLine n, List.nil_prefix⟩
  · rw [utf8_pathLine, List.length_map, length_pathLine]
  · rw [utf8_pathLine]
    intro hmem
    obtain ⟨c, hc, hbyte⟩ := List.mem_map.mp hmem
    exact hletters c (mem_pathLine hc) hbyte

/-- The headers take 65538 bytes with the empty line. -/
theorem longPath_depends_on_reads :
    ¬SegmentationFree (utf8 (.ofList (pathLine 65529)) ++ headerTerminator) := by
  refine not_segmentationFree (hasRequest_pathLine 65529) ?_
  unfold OffLimit
  omega

end Remote

end AtomrOntology
