import AtomrOntology.Rdf.NTriples
import AtomrOntology.Rdf.ReadsBack

/-!
# Writing Turtle

The writer declares the prefixes of the vocabulary and writes an IRI under the first
namespace whose base it starts with, unless what is left has a space or a slash. The
reader ends such a name at a dot, a semicolon or a comma as well.
-/

namespace AtomrOntology

/-- The bindings of a vocabulary, in the order of their prefixes. -/
def Vocabulary.iter (v : Vocabulary) : List (String × Iri) := v.namespaces.toList

namespace Turtle

/-- What is left of an IRI after a base, if the writer takes it for a local name. -/
def localUnder (base iri : Iri) : Option (List Char) :=
  (stripPrefix base.value.toList iri.value.toList).filter fun loc =>
    !loc.contains ' ' && !loc.contains '/'

section

variable (vocab : Vocabulary)

/-- `push_iri`. -/
def pushIri (iri : Iri) : List Char :=
  match vocab.iter.findSome? fun ns =>
      (localUnder ns.2 iri).map fun loc => ns.1.toList ++ ':' :: loc with
  | some text => text
  | none => '<' :: iri.value.toList ++ ['>']

def pushSubject : Subject → List Char
  | .iri iri => pushIri vocab iri
  | .blank label => '_' :: ':' :: label.toList

def pushObject : Object → List Char
  | .iri iri => pushIri vocab iri
  | .blank label => '_' :: ':' :: label.toList
  | .literal lexical datatype language =>
    '"' :: lexical.toList.flatMap NTriples.escape ++ '"' ::
      match language with
      | some lang => '@' :: lang.toList
      | none => if datatype = xsdString then [] else '^' :: '^' :: pushIri vocab datatype

def pushTriple (t : Triple) : List Char :=
  pushSubject vocab t.subject ++ ' ' ::
    (pushIri vocab t.predicate ++ ' ' :: pushObject vocab t.object)

/-- The directive of a namespace. -/
def prefixLine (ns : String × Iri) : List Char :=
  "@prefix ".toList ++ ns.1.toList ++ ": <".toList ++ ns.2.value.toList ++ "> .\n".toList

/-- The directives of a vocabulary. -/
def prefixLines : List Char := vocab.iter.flatMap prefixLine

end

/-- Serialize an ontology. -/
def write [SerdeJson] [RdfText] (o : Ontology) : String :=
  let vocab := o.projectionVocabulary
  let header := prefixLines vocab
  .ofList (header ++ (if header = [] then [] else ['\n']) ++
    (toRdf o).flatMap fun t => pushTriple vocab t ++ " .\n".toList)

/-- A local name is what is left of an IRI after its base, without blanks and slashes. -/
theorem localUnder_eq_some {base iri : Iri} {loc : List Char} :
    localUnder base iri = some loc ↔
      iri.value.toList = base.value.toList ++ loc ∧ ' ' ∉ loc ∧ '/' ∉ loc := by
  simp [localUnder, Option.filter_eq_some_iff, stripPrefix_eq_some]

/-- There is none if the rest has a blank or a slash. -/
theorem localUnder_eq_none {base iri : Iri} :
    localUnder base iri = none ↔
      ∀ loc, iri.value.toList = base.value.toList ++ loc → ' ' ∈ loc ∨ '/' ∈ loc := by
  rw [Option.eq_none_iff_forall_ne_some]
  constructor
  · intro h loc hsplits
    by_contra hno
    rw [not_or] at hno
    exact h loc (localUnder_eq_some.mpr ⟨hsplits, hno⟩)
  · intro h loc hloc
    obtain ⟨hsplits, hspace, hslash⟩ := localUnder_eq_some.mp hloc
    exact (h loc hsplits).elim hspace hslash

/-- The first namespace, in the order of the prefixes, whose base an IRI starts with and
under which neither a space nor a slash is left; and the local name that is left. -/
structure FirstFit (vocab : Vocabulary) (iri : Iri) (pre : String) (base : Iri)
    (loc : List Char) : Prop where
  splits : iri.value.toList = base.value.toList ++ loc
  plain : ' ' ∉ loc ∧ '/' ∉ loc
  first : ∃ before after, vocab.iter = before ++ (pre, base) :: after ∧
    ∀ ns ∈ before, ∀ loc', iri.value.toList = ns.2.value.toList ++ loc' → ' ' ∈ loc' ∨ '/' ∈ loc'

section

variable {vocab : Vocabulary} {iri : Iri}

/-- The first base that fits is one of the vocabulary. -/
theorem FirstFit.mem_iter {pre : String} {base : Iri} {loc : List Char}
    (h : FirstFit vocab iri pre base loc) : (pre, base) ∈ vocab.iter := by
  obtain ⟨before, after, hiter, -⟩ := h.first
  rw [hiter]
  exact List.mem_append_right _ List.mem_cons_self

/-- An IRI is written with the first prefix that fits. -/
theorem FirstFit.pushIri {pre : String} {base : Iri} {loc : List Char}
    (h : FirstFit vocab iri pre base loc) : pushIri vocab iri = pre.toList ++ ':' :: loc := by
  obtain ⟨before, after, hiter, hbefore⟩ := h.first
  have hfound : vocab.iter.findSome? (fun ns =>
      (localUnder ns.2 iri).map fun loc => ns.1.toList ++ ':' :: loc) =
        some (pre.toList ++ ':' :: loc) := by
    refine List.findSome?_eq_some_iff.mpr ⟨before, (pre, base), after, hiter, ?_, ?_⟩
    · rw [localUnder_eq_some.mpr ⟨h.splits, h.plain⟩]
      rfl
    · intro ns hns
      rw [localUnder_eq_none.mpr (hbefore ns hns)]
      rfl
  rw [Turtle.pushIri, hfound]

/-- An IRI is put in angle brackets or under the first namespace that fits. -/
theorem pushIri_cases (vocab : Vocabulary) (iri : Iri) :
    ((∀ pre base loc, ¬FirstFit vocab iri pre base loc) ∧
      pushIri vocab iri = '<' :: iri.value.toList ++ ['>']) ∨
    ∃ pre base loc, FirstFit vocab iri pre base loc := by
  cases hfound : vocab.iter.findSome? (fun ns =>
      (localUnder ns.2 iri).map fun loc => ns.1.toList ++ ':' :: loc) with
  | none =>
    have hnone := List.findSome?_eq_none_iff.mp hfound
    refine Or.inl ⟨?_, by rw [pushIri, hfound]⟩
    intro pre base loc h
    have hfit := hnone _ h.mem_iter
    rw [localUnder_eq_some.mpr ⟨h.splits, h.plain⟩] at hfit
    cases hfit
  | some text =>
    obtain ⟨before, ns, after, hiter, hns, hbefore⟩ := List.findSome?_eq_some_iff.mp hfound
    obtain ⟨loc, hloc, -⟩ := Option.map_eq_some_iff.mp hns
    obtain ⟨hsplits, hplain⟩ := localUnder_eq_some.mp hloc
    refine Or.inr ⟨ns.1, ns.2, loc, hsplits, hplain, before, after, hiter, ?_⟩
    intro ns' hns'
    exact localUnder_eq_none.mp (Option.map_eq_none_iff.mp (hbefore ns' hns'))

end

/-- Every prefix is a non-empty word of ASCII letters. -/
def LetterPrefixes (vocab : Vocabulary) : Prop :=
  ∀ ns ∈ vocab.iter, ns.1 ≠ "" ∧ ∀ c ∈ ns.1.toList, c.isAlpha

theorem isAlpha_bounds {c : Char} (h : c.isAlpha) :
    65 ≤ c.toNat ∧ c.toNat ≤ 90 ∨ 97 ≤ c.toNat ∧ c.toNat ≤ 122 := by
  simpa [Char.isAlpha, Char.isUpper, Char.isLower, UInt32.le_iff_toNat_le] using h

/-- Letters do not end a token. -/
theorem endsToken_of_isAlpha {c : Char} (h : c.isAlpha) : endsToken c = false := by
  have hb := isAlpha_bounds h
  have hne : ∀ d : Char, d.toNat < 60 → (c == d) = false := by
    intro d hd
    rw [beq_eq_false_iff_ne]
    rintro rfl
    omega
  rw [endsToken, hne '.' (by decide), hne ';' (by decide), hne ',' (by decide)]
  simp only [isWhitespace, Bool.or_false, Bool.or_eq_false_iff, Bool.and_eq_false_iff,
    decide_eq_false_iff_not, beq_eq_false_iff_ne]
  omega

/-- Letters are not marks. -/
theorem ne_of_isAlpha {c : Char} (h : c.isAlpha) : c ≠ ':' ∧ c ≠ '<' ∧ c ≠ '_' ∧ c ≠ '#' := by
  refine ⟨?_, ?_, ?_, ?_⟩ <;>
    · rintro rfl
      revert h
      decide

theorem isWhitespace_of_isAlpha {c : Char} (h : c.isAlpha) : isWhitespace c = false := by
  have hends := endsToken_of_isAlpha h
  simp only [endsToken, Bool.or_eq_false_iff] at hends
  exact hends.1.1.1

/-- Nothing is trimmed from what has no blanks. -/
theorem trimChars_of_ink {cs : List Char} (h : ∀ c ∈ cs, isWhitespace c = false) :
    trimChars cs = cs := by
  have hself : ∀ ds : List Char, (∀ c ∈ ds, isWhitespace c = false) →
      ds.dropWhile isWhitespace = ds := by
    intro ds hds
    cases ds with
    | nil => rfl
    | cons d ds => rw [List.dropWhile_cons, hds d List.mem_cons_self]; rfl
  rw [trimChars, hself cs h, hself cs.reverse (fun c hc => h c (List.mem_reverse.mp hc)),
    List.reverse_reverse]

/-- The directive of a namespace binds its prefix to its base. -/
theorem parseDirectives_prefixLine (v : Vocabulary) {ns : String × Iri} (rest : List Char)
    (hne : ns.1 ≠ "") (hletters : ∀ c ∈ ns.1.toList, c.isAlpha)
    (hbase : '>' ∉ ns.2.value.toList) :
    parseDirectives v (prefixLine ns ++ rest) = parseDirectives (v.bind ns.1 ns.2) rest := by
  obtain ⟨pre, base⟩ := ns
  simp only at hne hletters hbase
  obtain ⟨first, pre', hpre⟩ : ∃ first pre', pre.toList = first :: pre' := by
    cases hpre : pre.toList with
    | nil => exact absurd (String.toList_eq_nil_iff.mp hpre) hne
    | cons first pre' => exact ⟨first, pre', rfl⟩
  have hfirst := hletters first (by rw [hpre]; exact List.mem_cons_self)
  have hcolon : ':' ∉ pre.toList := fun hmem => (ne_of_isAlpha (hletters _ hmem)).1 rfl
  have hstarts : ∃ c ∈ pre.toList.head?, isWhitespace c = false ∧ c ≠ '#' :=
    ⟨first, by rw [hpre]; rfl, isWhitespace_of_isAlpha hfirst, (ne_of_isAlpha hfirst).2.2.2⟩
  have htrim := trimChars_of_ink fun c hc => isWhitespace_of_isAlpha (hletters c hc)
  exact parseDirectives_line pre base.value rest v hcolon hstarts htrim hbase

/-- The directives of a vocabulary without `>` in its bases are read as that vocabulary. -/
theorem parseDirectives_prefixLines_append {vocab : Vocabulary} (hnames : LetterPrefixes vocab)
    (hbases : ∀ ns ∈ vocab.iter, '>' ∉ ns.2.value.toList) (rest : List Char) :
    parseDirectives .empty (prefixLines vocab ++ rest) = parseDirectives vocab rest := by
  have hrun : ∀ (nss : List (String × Iri)) (v : Vocabulary), (∀ ns ∈ nss, ns ∈ vocab.iter) →
      parseDirectives v (nss.flatMap prefixLine ++ rest) =
        parseDirectives ⟨nss.foldl (fun m ns => m.insert ns.1 ns.2) v.namespaces⟩ rest := by
    intro nss
    induction nss with
    | nil =>
      intro v _
      rfl
    | cons ns nss ih =>
      intro v hmem
      have hns := hmem ns List.mem_cons_self
      rw [List.flatMap_cons, List.append_assoc, parseDirectives_prefixLine v _ (hnames ns hns).1
        (hnames ns hns).2 (hbases ns hns), ih _ fun n hn => hmem n (List.mem_cons_of_mem ns hn)]
      rfl
  rw [prefixLines, hrun vocab.iter .empty fun _ h => h]
  have hmap := BTreeMap.ofList_toList vocab.namespaces
  rw [Std.ExtTreeMap.ofList_eq_foldl] at hmap
  change parseDirectives (Vocabulary.mk (vocab.namespaces.toList.foldl _ ∅)) rest = _
  rw [hmap]

/-- The prefix lines are read back as the vocabulary. -/
theorem parseDirectives_prefixLines {vocab : Vocabulary} (hnames : LetterPrefixes vocab)
    (hbases : ∀ ns ∈ vocab.iter, '>' ∉ ns.2.value.toList) :
    parseDirectives .empty (prefixLines vocab) = .ok (vocab, []) := by
  have happend := parseDirectives_prefixLines_append hnames hbases []
  rw [List.append_nil] at happend
  rw [happend, parseDirectives_eq]
  rfl

/-- A mark inside a name ends it early. -/
theorem length_dropWhile_of_mem {token : List Char} (rest : List Char) {c : Char}
    (hc : c ∈ token) (hends : endsToken c) :
    rest.length < ((token ++ rest).dropWhile (!endsToken ·)).length := by
  induction token with
  | nil => cases hc
  | cons d token ih =>
    rw [List.cons_append, List.dropWhile_cons]
    by_cases hd : endsToken d
    · simp only [hd, Bool.not_true, Bool.false_eq_true, ↓reduceIte, List.length_cons,
        List.length_append]
      omega
    · simp only [Bool.not_eq_true] at hd
      simp only [hd, Bool.not_false, ↓reduceIte]
      refine ih ?_
      rcases List.mem_cons.mp hc with rfl | hc
      · rw [hends] at hd
        cases hd
      · exact hc

section

variable {reader : Vocabulary} {pre : String} {base iri : Iri} {loc : List Char}

/-- A text that starts with a prefix in letters is read as a prefixed name. -/
theorem parseTerm_letters (rest : List Char) (hne : pre ≠ "")
    (hletters : ∀ c ∈ pre.toList, c.isAlpha) :
    parseIriOrCurieOrBlank reader (pre.toList ++ rest) =
      match splitOnce ':' ((pre.toList ++ rest).takeWhile (!endsToken ·)) with
      | none =>
        .error (.unrecognizedToken (.ofList ((pre.toList ++ rest).takeWhile (!endsToken ·))))
      | some (p, loc) =>
        match reader.namespaces[String.ofList p]? with
        | some base =>
          .ok (.iri ⟨base.value ++ .ofList loc⟩, (pre.toList ++ rest).dropWhile (!endsToken ·))
        | none => .error (.unknownPrefix (.ofList p)) := by
  cases hpre : pre.toList with
  | nil => exact absurd (String.toList_eq_nil_iff.mp hpre) hne
  | cons first pre' =>
    have hfirst := ne_of_isAlpha (hletters first (by rw [hpre]; exact List.mem_cons_self))
    have hangle : stripPrefix ['<'] (first :: pre' ++ rest) = none := by
      simp [stripPrefix, Ne.symm hfirst.2.1]
    have hblank : stripPrefix ['_', ':'] (first :: pre' ++ rest) = none := by
      simp [stripPrefix, Ne.symm hfirst.2.2.1]
    rewrite [parseIriOrCurieOrBlank, hangle, hblank]
    rfl

/-- A prefixed name that is read back whole has no mark in its local name. -/
theorem endsToken_of_reads {rest : List Char} (hne : pre ≠ "")
    (hletters : ∀ c ∈ pre.toList, c.isAlpha)
    (h : parseIriOrCurieOrBlank reader (pre.toList ++ (':' :: loc ++ ' ' :: rest)) =
      .ok (.iri iri, ' ' :: rest)) : ∀ c ∈ loc, endsToken c = false := by
  intro c hc
  by_contra hends
  have hmem : c ∈ pre.toList ++ ':' :: loc :=
    List.mem_append_right pre.toList (List.mem_cons_of_mem ':' hc)
  have hlonger := length_dropWhile_of_mem (' ' :: rest) hmem (Bool.not_eq_false _ ▸ hends)
  rw [List.append_assoc] at hlonger
  rw [parseTerm_letters _ hne hletters] at h
  split at h
  · cases h
  · split at h
    · have hrest := congrArg (fun r => r.2.length) (Except.ok.inj h)
      simp only at hrest
      omega
    · cases h

/-- A prefixed name in letters is read back exactly when the prefix is bound to the base and
no mark ends the local name early. -/
theorem parseTerm_prefixed_iff (rest : List Char) (hne : pre ≠ "")
    (hletters : ∀ c ∈ pre.toList, c.isAlpha)
    (hsplits : iri.value.toList = base.value.toList ++ loc) :
    parseIriOrCurieOrBlank reader (pre.toList ++ (':' :: loc ++ ' ' :: rest)) =
        .ok (.iri iri, ' ' :: rest) ↔
      reader.namespaces[pre]? = some base ∧ ∀ c ∈ loc, endsToken c = false := by
  have hiri : iri = ⟨base.value ++ .ofList loc⟩ := by
    apply Iri.ext
    rw [← String.toList_inj, String.toList_append, String.toList_ofList]
    exact hsplits
  have hcolon : ':' ∉ pre.toList := fun hmem => (ne_of_isAlpha (hletters _ hmem)).1 rfl
  -- without marks in the local name, its whole text is taken
  have hwhole : (∀ c ∈ loc, endsToken c = false) →
      parseIriOrCurieOrBlank reader (pre.toList ++ (':' :: loc ++ ' ' :: rest)) =
        match reader.namespaces[pre]? with
        | some base => .ok (.iri ⟨base.value ++ .ofList loc⟩, ' ' :: rest)
        | none => .error (.unknownPrefix pre) := by
    intro hloc
    have htoken : ∀ c ∈ pre.toList ++ ':' :: loc, endsToken c = false := by
      intro c hc
      rcases List.mem_append.mp hc with hc | hc
      · exact endsToken_of_isAlpha (hletters c hc)
      · rcases List.mem_cons.mp hc with rfl | hc
        · decide
        · exact hloc c hc
    rw [parseTerm_letters _ hne hletters, ← List.append_assoc, takeWhile_token htoken,
      dropWhile_token htoken, splitOnce_append _ hcolon]
    simp only [String.ofList_toList]
  constructor
  · intro h
    have hloc := endsToken_of_reads hne hletters h
    refine ⟨?_, hloc⟩
    rw [hwhole hloc] at h
    split at h
    · next base' hbound =>
      have hvalue : base'.value ++ .ofList loc = base.value ++ .ofList loc := by
        have hsubject := congrArg Prod.fst (Except.ok.inj h)
        rw [hiri] at hsubject
        exact congrArg Iri.value (Subject.iri.inj hsubject)
      have hbase : base' = base := Iri.ext ((String.append_left_inj _).mp hvalue)
      rw [hbound, hbase]
    · cases h
  · rintro ⟨hbound, hloc⟩
    rw [hwhole hloc, hbound, hiri]

end

/-- The text of an IRI, followed by a space, is read back as that IRI exactly when the first
namespace that fits, if there is one, leaves a local name without marks. The prefix has to
be bound to the same base again; it is, unless a base has a `>` in it. -/
theorem parseTerm_pushIri_iff {vocab : Vocabulary} (hnames : LetterPrefixes vocab) {iri : Iri}
    (hiri : ∀ c ∈ iri.value.toList, isWhitespace c = false ∧ c ≠ '>') (rest : List Char) :
    ((∀ ns ∈ vocab.iter, '>' ∉ ns.2.value.toList) →
      parseDirectives .empty (prefixLines vocab) = .ok (vocab, [])) ∧
    ∀ reader, parseDirectives .empty (prefixLines vocab) = .ok (reader, []) →
      (parseIriOrCurieOrBlank reader (pushIri vocab iri ++ ' ' :: rest) =
          .ok (.iri iri, ' ' :: rest) ↔
        ∀ pre base loc, FirstFit vocab iri pre base loc →
          reader.namespaces[pre]? = some base ∧ ∀ c ∈ loc, c ≠ '.' ∧ c ≠ ';' ∧ c ≠ ',') := by
  have hmarks : ∀ {pre base loc}, FirstFit vocab iri pre base loc →
      ((∀ c ∈ loc, endsToken c = false) ↔ ∀ c ∈ loc, c ≠ '.' ∧ c ≠ ';' ∧ c ≠ ',') := by
    intro pre base loc hfit
    refine forall₂_congr fun c hc => ?_
    have hink := (hiri c (hfit.splits ▸ List.mem_append_right _ hc)).1
    simp [endsToken, hink, and_assoc]
  have hread : ∀ {pre base loc}, FirstFit vocab iri pre base loc → ∀ reader,
      (parseIriOrCurieOrBlank reader (pushIri vocab iri ++ ' ' :: rest) =
          .ok (.iri iri, ' ' :: rest) ↔
        reader.namespaces[pre]? = some base ∧ ∀ c ∈ loc, endsToken c = false) := by
    intro pre base loc hfit reader
    obtain ⟨hne, hletters⟩ := hnames _ hfit.mem_iter
    rw [hfit.pushIri, List.append_assoc]
    exact parseTerm_prefixed_iff rest hne hletters hfit.splits
  refine ⟨parseDirectives_prefixLines hnames, ?_⟩
  intro reader _
  constructor
  · intro h pre base loc hfit
    obtain ⟨hbound, hloc⟩ := (hread hfit reader).mp h
    exact ⟨hbound, (hmarks hfit).mp hloc⟩
  · intro h
    rcases pushIri_cases vocab iri with ⟨-, htext⟩ | ⟨pre, base, loc, hfit⟩
    · have hangle : Reads (parseIriOrCurieOrBlank reader) ('<' :: iri.value.toList ++ ['>']) _ :=
        reads_angle fun hmem => (hiri _ hmem).2 rfl
      rw [String.ofList_toList] at hangle
      rw [htext]
      exact hangle.reads rest
    · obtain ⟨hbound, hloc⟩ := h pre base loc hfit
      exact (hread hfit reader).mpr ⟨hbound, (hmarks hfit).mpr hloc⟩

/-- A vocabulary with one namespace. -/
def exampleVocabulary : Vocabulary := Vocabulary.empty.bind "ex" ⟨"http://ex/"⟩

theorem iter_exampleVocabulary : exampleVocabulary.iter = [("ex", ⟨"http://ex/"⟩)] := rfl

theorem letterPrefixes_example : LetterPrefixes exampleVocabulary := by
  intro ns hns
  rw [iter_exampleVocabulary, List.mem_singleton] at hns
  subst hns
  exact ⟨by decide, by simp⟩

theorem parseDirectives_example :
    parseDirectives .empty (prefixLines exampleVocabulary) = .ok (exampleVocabulary, []) := by
  refine parseDirectives_prefixLines letterPrefixes_example ?_
  intro ns hns
  rw [iter_exampleVocabulary, List.mem_singleton] at hns
  subst hns
  simp

/-- `ex:Acme` is read back. -/
theorem parseTerm_pushIri_acme :
    parseIriOrCurieOrBlank exampleVocabulary
        (pushIri exampleVocabulary ⟨"http://ex/Acme"⟩ ++ [' ']) =
      .ok (.iri ⟨"http://ex/Acme"⟩, [' ']) := by
  refine ((parseTerm_pushIri_iff letterPrefixes_example (by simp [isWhitespace]) []).2 _
    parseDirectives_example).mpr ?_
  intro pre base loc hfit
  have hbound : exampleVocabulary.namespaces[pre]? = some base :=
    Std.ExtTreeMap.mem_toList_iff_getElem?_eq_some.mp hfit.mem_iter
  refine ⟨hbound, ?_⟩
  have hmem := hfit.mem_iter
  rw [iter_exampleVocabulary, List.mem_singleton, Prod.mk.injEq] at hmem
  obtain ⟨rfl, rfl⟩ := hmem
  have hloc : loc = ['A', 'c', 'm', 'e'] := by simpa using hfit.splits.symm
  subst hloc
  simp

/-- A dot in a local name ends it. -/
theorem version_is_cut : ¬∀ vocab, LetterPrefixes vocab → ∀ iri : Iri,
    (∀ c ∈ iri.value.toList, isWhitespace c = false ∧ c ≠ '>') → ∀ rest,
      ∃ reader, parseDirectives .empty (prefixLines vocab) = .ok (reader, []) ∧
        parseIriOrCurieOrBlank reader (pushIri vocab iri ++ ' ' :: rest) =
          .ok (.iri iri, ' ' :: rest) := by
  intro h
  have hclean : ∀ c ∈ "http://ex/v1.2".toList, isWhitespace c = false ∧ c ≠ '>' := by
    simp [isWhitespace]
  obtain ⟨reader, -, hread⟩ := h _ letterPrefixes_example ⟨"http://ex/v1.2"⟩ hclean []
  have hfit : FirstFit exampleVocabulary ⟨"http://ex/v1.2"⟩ "ex" ⟨"http://ex/"⟩
      ['v', '1', '.', '2'] :=
    ⟨by simp, by simp, [], [], iter_exampleVocabulary, by simp⟩
  rw [hfit.pushIri, List.append_assoc] at hread
  have hdot := endsToken_of_reads (by decide) (by simp) hread '.' (by decide)
  exact absurd hdot (by decide)

end Turtle

end AtomrOntology
