import AtomrOntology.Core.Json
import AtomrOntology.Logic.SliceSort

/-!
# The vector index

Records are stored in the order of their insertion and ranked by their similarity to a query. The
comparison takes a score that is not a number as equal to every other one, so it is a total order
only where there is no such score, or where all the other ones are equal. In the latter case the
sort leaves the records as they are.
-/

namespace AtomrOntology

/-- An IEEE 754 binary32 value. -/
structure F32 where
  bits : BitVec 32
deriving DecidableEq, Repr

/-- A similarity: not a number, or a number. -/
inductive Score (S : Type) where
  | nan
  | num (s : S)
deriving DecidableEq

/-- `PartialOrd` of scores. -/
def Score.partialCmp {S : Type} [LinearOrder S] : Score S → Score S → Option Ordering
  | .num a, .num b => some (compare a b)
  | _, _ => none

/-- A score may stand before another one: it is not below it, and numbers come first. -/
def Score.Ranks {S : Type} [LinearOrder S] : Score S → Score S → Prop
  | .num a, .num b => b ≤ a
  | .nan, .num _ => False
  | _, .nan => True

/-- What is left to floating point: the similarity of two vectors. -/
class Similarity (S : Type) where
  cosineSimilarity : List F32 → List F32 → Score S

/-- The similarity of two vectors of one component: the sign of their product. -/
abbrev Similarity.signs : Similarity Int where
  cosineSimilarity
    | [x], [y] =>
      let zero (v : F32) := v.bits &&& 0x7FFFFFFF#32 = 0
      let finite (v : F32) := v.bits &&& 0x7F800000#32 ≠ 0x7F800000#32
      if zero x ∨ zero y then .num 0
      else if ¬finite x ∨ ¬finite y then .nan
      else .num (if x.bits.msb = y.bits.msb then 1 else -1)
    | _, _ => .num 0

/-- The number one. -/
def F32.one : F32 := ⟨0x3F800000#32⟩

/-- Why a record is not inserted. -/
inductive VectorIndexError where
  | dimensionMismatch (expected actual : Nat)
deriving DecidableEq, Repr

/-- The display form. -/
def VectorIndexError.text : VectorIndexError → String
  | .dimensionMismatch expected actual => "vector dimension mismatch: expected " ++
      toString expected ++ ", got " ++ toString actual

/-- A stored vector. -/
structure VectorRecord where
  iri : String
  vector : List F32
  metadata : Json

/-- A linear-scan index. -/
structure VectorIndex where
  records : List VectorRecord
  dim : Option Nat

namespace VectorIndex

/-- An empty index with a fixed dimension. -/
def withDimensions (dim : Nat) : VectorIndex := ⟨[], some dim⟩

/-- Insert a record; the first one fixes the dimension. -/
def insert (idx : VectorIndex) (record : VectorRecord) : Except VectorIndexError VectorIndex :=
  let actual := record.vector.length
  match idx.dim with
  | some expected =>
    if expected ≠ actual then .error (.dimensionMismatch expected actual)
    else .ok { idx with records := idx.records ++ [record] }
  | none => .ok { records := idx.records ++ [record], dim := some actual }

section

variable {S : Type} [LinearOrder S] [Similarity S]

/-- The comparison of scored records: descending, whatever cannot be compared is equal. -/
def compareScored (a b : Nat × Score S) : Ordering := (b.2.partialCmp a.2).getD .eq

/-- The position and the score of each record. -/
def scored (idx : VectorIndex) (query : List F32) : List (Nat × Score S) :=
  idx.records.zipIdx.map fun (r, i) => (i, Similarity.cosineSimilarity query r.vector)

/-- The query has the dimension of the index. -/
def Accepts (idx : VectorIndex) (query : List F32) : Prop := ∀ dim ∈ idx.dim, query.length = dim

instance (idx : VectorIndex) (query : List F32) : Decidable (idx.Accepts query) :=
  inferInstanceAs (Decidable (∀ dim ∈ idx.dim, query.length = dim))

/-- Up to `topK` records with their scores; nothing if the sort panics or a position is out of
range. -/
def search [SliceSort] (idx : VectorIndex) (query : List F32) (topK : Nat) :
    Option (List (VectorRecord × Score S)) :=
  if topK = 0 ∨ idx.records.isEmpty then some []
  else if ¬idx.Accepts query then some []
  else do
    let sorted ← SliceSort.sortBy compareScored (idx.scored query)
    (sorted.take topK).mapM fun (i, s) => idx.records[i]?.map fun r => (r, s)

/-- The records with their scores. -/
def ranked (idx : VectorIndex) (query : List F32) : List (VectorRecord × Score S) :=
  idx.records.map fun r => (r, Similarity.cosineSimilarity query r.vector)

/-- The record at the position of a score. -/
def hit (idx : VectorIndex) (p : Nat × Score S) : Option (VectorRecord × Score S) :=
  idx.records[p.1]?.map fun r => (r, p.2)

variable {idx : VectorIndex} {query : List F32} {topK : Nat}

theorem mapM_eq_some {α β : Type} {f : α → Option β} {l : List α} {ys : List β}
    (h : l.map f = ys.map some) : l.mapM f = some ys := by
  induction l generalizing ys with
  | nil =>
    obtain rfl : ys = [] := by simpa using h.symm
    rfl
  | cons x l ih =>
    cases ys with
    | nil => cases h
    | cons y ys =>
      obtain ⟨hx, hl⟩ := List.cons.inj h
      rw [List.mapM_cons, hx, ih hl]
      rfl

omit [LinearOrder S] in
/-- Every position is in range, and leads to the record that was scored. -/
theorem map_hit_scored (idx : VectorIndex) (query : List F32) :
    (idx.scored query).map idx.hit = (idx.ranked query : List (VectorRecord × Score S)).map
    some := by
  have hfst : idx.records.zipIdx.map Prod.fst = idx.records := List.zipIdx_map_fst 0 idx.records
  rw [scored, ranked, List.map_map, List.map_map]
  conv_rhs => rw [← hfst, List.map_map]
  refine List.map_congr_left fun p hp => ?_
  simp only [Function.comp_apply, hit, List.mem_zipIdx_iff_getElem?.mp hp, Option.map_some]

/-- A search that sorts returns the first records of an arrangement of all of them. -/
theorem search_of_sorted [SliceSort] {sorted : List (Nat × Score S)} (hk : topK ≠ 0)
    (hne : idx.records ≠ []) (hquery : idx.Accepts query)
    (h : SliceSort.sortBy compareScored (idx.scored query) = some sorted) :
    ∃ all : List (VectorRecord × Score S), sorted.map idx.hit = all.map some ∧
      all.Perm (idx.ranked query) ∧ idx.search query topK = some (all.take topK) := by
  have hperm := (SliceSort.sortBy_perm h).map idx.hit
  rw [map_hit_scored] at hperm
  -- what the sort returns has a record at every position, since it is a permutation
  have hall : sorted.map idx.hit = (sorted.filterMap idx.hit).map some := by
    have hsome : ∀ p ∈ sorted, (idx.hit p).isSome := by
      intro p hp
      obtain ⟨q, -, hq⟩ := List.mem_map.mp (hperm.subset (List.mem_map_of_mem hp))
      rw [← hq]
      rfl
    clear hperm h
    induction sorted with
    | nil => rfl
    | cons p sorted ih =>
      obtain ⟨q, hq⟩ := Option.isSome_iff_exists.mp (hsome p List.mem_cons_self)
      rw [List.map_cons, List.filterMap_cons_some hq, List.map_cons, hq,
        ih fun p hp => hsome p (List.mem_cons_of_mem _ hp)]
  refine ⟨sorted.filterMap idx.hit, hall, ?_, ?_⟩
  · rw [hall] at hperm
    simpa [List.reduceOption] using hperm.filterMap id
  · rw [search, if_neg (by simp [hk, hne]), if_neg (not_not.mpr hquery), h]
    refine mapM_eq_some (f := idx.hit) ?_
    rw [List.map_take, hall, List.map_take]

/-- So many of the records, in descending order with those last whose score is not a number, and
none left out that should stand before one of them. -/
structure TopK (k : Nat) (all hits : List (VectorRecord × Score S)) : Prop where
  length : hits.length = min k all.length
  sorted : hits.Pairwise fun a b => a.2.Ranks b.2
  best : ∃ omitted, (hits ++ omitted).Perm all ∧ ∀ a ∈ hits, ∀ b ∈ omitted, a.2.Ranks b.2

omit [Similarity S] in
/-- The first records of an arrangement are the best ones, exactly if they rank before all that
follow them. -/
theorem topK_take_iff {all found : List (VectorRecord × Score S)} (hperm : found.Perm all)
    (k : Nat) :
    TopK k all (found.take k) ↔ ∀ i j a b, i < j → i < k → found[i]? = some a → found[j]? = some b →
      a.2.Ranks b.2 := by
  rw [← take_related_iff (R := fun a b : VectorRecord × Score S => a.2.Ranks b.2)]
  constructor
  · intro h
    obtain ⟨omitted, hall, hbest⟩ := h.best
    have hdrop : omitted.Perm (found.drop k) := by
      have hboth : (found.take k ++ omitted).Perm (found.take k ++ found.drop k) := by
        rw [List.take_append_drop]
        exact hall.trans hperm.symm
      exact (List.perm_append_left_iff _).mp hboth
    exact ⟨h.sorted, fun a ha b hb => hbest a ha b (hdrop.mem_iff.mpr hb)⟩
  · intro h
    refine ⟨?_, h.1, found.drop k, ?_, h.2⟩
    · rw [List.length_take, hperm.length_eq]
    · rw [List.take_append_drop]
      exact hperm

/-- The scores of the records. -/
def scores (idx : VectorIndex) (query : List F32) : List (Score S) :=
  idx.records.map fun r => Similarity.cosineSimilarity query r.vector

/-- No number stands behind one of the first scores that is not a number. -/
def NansLast (k : Nat) (scores : List (Score S)) : Prop :=
  ∀ i j x, i < j → i < k → scores[i]? = some .nan → scores[j]? ≠ some (.num x)

omit [LinearOrder S] in
theorem snd_scored (idx : VectorIndex) (query : List F32) :
    (idx.scored query).map Prod.snd = (idx.scores query : List (Score S)) := by
  have hfst : idx.records.zipIdx.map Prod.fst = idx.records := List.zipIdx_map_fst 0 idx.records
  rw [scored, scores, List.map_map]
  conv_rhs => rw [← hfst, List.map_map]
  rfl

omit [LinearOrder S] in
theorem snd_ranked (idx : VectorIndex) (query : List F32) :
    (idx.ranked query).map Prod.snd = (idx.scores query : List (Score S)) := by
  rw [ranked, scores, List.map_map]
  rfl

omit [Similarity S] in
/-- Only two different numbers do not compare equal. -/
theorem compareScored_eq {a b : Nat × Score S} (h : ∀ x y, a.2 = .num x → b.2 = .num y → x = y) :
    compareScored a b = .eq := by
  obtain ⟨i, s⟩ := a
  obtain ⟨j, t⟩ := b
  cases s with
  | nan => cases t <;> rfl
  | num x =>
    cases t with
    | nan => rfl
    | num y =>
      obtain rfl := h x y rfl rfl
      exact compare_eq_iff_eq.mpr rfl

omit [Similarity S] in
/-- Scores that are numbers are in total order, the greatest first. -/
theorem totalOn_of_nums {l : List (Nat × Score S)} (h : ∀ p ∈ l, p.2 ≠ .nan) :
    TotalOn compareScored l := by
  have hnum : ∀ p ∈ l, ∃ i x, p = (i, Score.num x) := by
    rintro ⟨i, s⟩ hp
    cases s with
    | nan => exact absurd rfl (h _ hp)
    | num x => exact ⟨i, x, rfl⟩
  have hcompare : ∀ (i j : Nat) (x y : S), compareScored (i, .num x) (j, .num y) = compare y x :=
    fun _ _ _ _ => rfl
  constructor
  · intro a ha b hb
    obtain ⟨i, x, rfl⟩ := hnum a ha
    obtain ⟨j, y, rfl⟩ := hnum b hb
    rw [hcompare, hcompare]
    exact Std.OrientedOrd.eq_swap
  · intro a ha b hb c hc
    obtain ⟨i, x, rfl⟩ := hnum a ha
    obtain ⟨j, y, rfl⟩ := hnum b hb
    obtain ⟨k, z, rfl⟩ := hnum c hc
    simp only [hcompare, compare_lt_iff_lt]
    exact fun hyx hzy => hzy.trans hyx
  · intro a ha b hb c hc
    obtain ⟨i, x, rfl⟩ := hnum a ha
    obtain ⟨j, y, rfl⟩ := hnum b hb
    obtain ⟨k, z, rfl⟩ := hnum c hc
    simp only [hcompare, compare_eq_iff_eq]
    exact fun hyx hzy => hzy.trans hyx

omit [Similarity S] in
/-- A score that is not a number between two different numbers is equal to both. -/
theorem not_totalOn {l : List (Nat × Score S)} {i j k : Nat} {x y : S} (hx : (i, .num x) ∈ l)
    (hnan : (j, .nan) ∈ l) (hy : (k, .num y) ∈ l) (hne : x ≠ y) : ¬TotalOn compareScored l := by
  intro h
  have heq : compare y x = .eq := h.eq_trans _ hx _ hnan _ hy rfl rfl
  exact hne (compare_eq_iff_eq.mp heq).symm

omit [Similarity S] in
theorem ranks_of_isLE {a b : Nat × Score S} (ha : a.2 ≠ .nan) (hb : b.2 ≠ .nan)
    (h : (compareScored a b).isLE = true) : a.2.Ranks b.2 := by
  obtain ⟨i, s⟩ := a
  obtain ⟨j, t⟩ := b
  cases s with
  | nan => exact absurd rfl ha
  | num x =>
    cases t with
    | nan => exact absurd rfl hb
    | num y =>
      have hle : (compare y x).isLE = true := h
      exact compare_le_iff_le.mp (by simpa [Ordering.isLE_iff_ne_gt] using hle)

omit [LinearOrder S] in
theorem mem_ranked {p : VectorRecord × Score S} (h : p ∈ idx.ranked query) :
    p.2 ∈ (idx.scores query : List (Score S)) := by
  rw [← snd_ranked]
  exact List.mem_map_of_mem h

/-- Scores that are numbers are sorted, and the records with them. -/
theorem search_of_nums [SliceSort] (hk : topK ≠ 0) (hne : idx.records ≠ [])
    (hquery : idx.Accepts query) (hnum : ∀ s ∈ (idx.scores query : List (Score S)), s ≠ .nan) :
    ∃ hits, idx.search query topK = some hits ∧
      TopK topK (idx.ranked query : List (VectorRecord × Score S)) hits := by
  have hscored : ∀ p ∈ (idx.scored query : List (Nat × Score S)), p.2 ≠ .nan := by
    intro p hp
    refine hnum p.2 ?_
    rw [← snd_scored]
    exact List.mem_map_of_mem hp
  obtain ⟨sorted, hsort, hsorted⟩ := SliceSort.sortBy_total (totalOn_of_nums hscored)
  obtain ⟨all, hall, hperm, hsearch⟩ := search_of_sorted hk hne hquery hsort
  refine ⟨all.take topK, hsearch, (topK_take_iff hperm topK).mpr fun i j a b hij _ ha hb => ?_⟩
  -- the records at two positions have the scores that were sorted there
  have hat : ∀ {i : Nat} {a : VectorRecord × Score S}, all[i]? = some a →
      ∃ p, sorted[i]? = some p ∧ p.2 = a.2 := by
    intro i a ha
    have hi := congrArg (·[i]?) hall
    rw [List.getElem?_map, List.getElem?_map, ha] at hi
    obtain ⟨p, hp, hhit⟩ := Option.map_eq_some_iff.mp hi
    obtain ⟨r, -, rfl⟩ := Option.map_eq_some_iff.mp hhit
    exact ⟨p, hp, rfl⟩
  obtain ⟨p, hp, hpa⟩ := hat ha
  obtain ⟨q, hq, hqb⟩ := hat hb
  have hle : (compareScored p q).isLE = true := by
    obtain ⟨hi, rfl⟩ := List.getElem?_eq_some_iff.mp hp
    obtain ⟨hj, rfl⟩ := List.getElem?_eq_some_iff.mp hq
    exact List.pairwise_iff_getElem.mp hsorted.ascending i j hi hj hij
  have hmem : ∀ {i : Nat} {p : Nat × Score S}, sorted[i]? = some p → p.2 ≠ .nan := fun h =>
    hscored _ (hsorted.perm.subset (List.mem_of_getElem? h))
  rw [← hpa, ← hqb]
  exact ranks_of_isLE (hmem hp) (hmem hq) hle

/-- Where no two numbers differ the sort moves no record, so that the first ones are returned. -/
theorem search_of_same [SliceSort] (hk : topK ≠ 0) (hne : idx.records ≠ [])
    (hquery : idx.Accepts query)
    (hsame : ∀ x y, Score.num x ∈ (idx.scores query : List (Score S)) →
      Score.num y ∈ (idx.scores query : List (Score S)) → x = y) :
    idx.search query topK =
      some ((idx.ranked query : List (VectorRecord × Score S)).take topK) := by
  have heq : ∀ p ∈ (idx.scored query : List (Nat × Score S)), ∀ q ∈ idx.scored query,
      compareScored p q = .eq := by
    intro p hp q hq
    have hmem : ∀ {p : Nat × Score S}, p ∈ idx.scored query → p.2 ∈ idx.scores query := by
      intro p h
      rw [← snd_scored]
      exact List.mem_map_of_mem h
    exact compareScored_eq fun x y hx hy => hsame x y (hx ▸ hmem hp) (hy ▸ hmem hq)
  obtain ⟨sorted, hsort, hsorted⟩ := SliceSort.sortBy_total (TotalOn.of_eq heq)
  obtain rfl := hsorted.eq_of_eq heq
  obtain ⟨all, hall, -, hsearch⟩ := search_of_sorted hk hne hquery hsort
  rw [map_hit_scored] at hall
  obtain rfl := List.map_injective_iff.mpr (Option.some_injective _) hall
  exact hsearch

/-- Records whose numbers are all the same are the best ones as they are, exactly if none of them
stands behind one of the first scores that is not a number. -/
theorem topK_ranked_iff (hsame : ∀ x y, Score.num x ∈ (idx.scores query : List (Score S)) →
      Score.num y ∈ (idx.scores query : List (Score S)) → x = y) :
    TopK topK (idx.ranked query : List (VectorRecord × Score S)) ((idx.ranked query).take topK) ↔
      NansLast topK (idx.scores query : List (Score S)) := by
  rw [topK_take_iff (List.Perm.refl _), ← snd_ranked, NansLast]
  simp only [List.getElem?_map, Option.map_eq_some_iff, ne_eq, not_exists, not_and]
  constructor
  · rintro h i j x hij hik ⟨a, ha, hnan⟩ b hb hx
    have hranks := h i j a b hij hik ha hb
    rw [hnan, hx] at hranks
    exact hranks
  · intro h i j a b hij hik ha hb
    cases hs : a.2 with
    | nan =>
      cases ht : b.2 with
      | nan => trivial
      | num y => exact absurd ht (h i j y hij hik ⟨a, ha, hs⟩ b hb)
    | num x =>
      cases ht : b.2 with
      | nan => trivial
      | num y =>
        have hmem : ∀ {p : VectorRecord × Score S} {i : Nat}, (idx.ranked query)[i]? = some p →
            p.2 ∈ idx.scores query := fun h => mem_ranked (List.mem_of_getElem? h)
        exact (hsame x y (hs ▸ hmem ha) (ht ▸ hmem hb)).ge

/-- A search returns the best records, whatever the sort does with a comparison that is not an
order, exactly if there is nothing to rank, or the query has the right dimension and either every
score is a number, or all numbers are the same one and stand where they should already. -/
theorem search_topK_iff (idx : VectorIndex) (query : List F32) (topK : Nat) :
    (∀ _ : SliceSort, ∃ hits : List (VectorRecord × Score S),
      idx.search query topK = some hits ∧ TopK topK (idx.ranked query) hits) ↔
    topK = 0 ∨ idx.records = [] ∨ idx.Accepts query ∧
      ((∀ s ∈ (idx.scores query : List (Score S)), s ≠ .nan) ∨
        (∀ x y, Score.num x ∈ (idx.scores query : List (Score S)) →
          Score.num y ∈ (idx.scores query : List (Score S)) → x = y) ∧
        NansLast topK (idx.scores query : List (Score S))) := by
  by_cases hk : topK = 0
  · refine iff_of_true (fun _ => ⟨[], by rw [search, if_pos (Or.inl hk)], ?_⟩) (Or.inl hk)
    subst hk
    exact ⟨(Nat.zero_min _).symm, List.Pairwise.nil, idx.ranked query, List.Perm.refl _, by simp⟩
  by_cases hne : idx.records = []
  · refine iff_of_true (fun _ => ⟨[], ?_, ?_⟩) (Or.inr (Or.inl hne))
    · rw [search, if_pos (Or.inr (List.isEmpty_iff.mpr hne))]
    · rw [ranked, hne]
      exact ⟨(Nat.min_zero _).symm, List.Pairwise.nil, [], List.Perm.refl _, by simp⟩
  simp only [hk, hne, false_or]
  by_cases hquery : idx.Accepts query
  swap
  · -- a query of another dimension finds nothing
    refine iff_of_false (fun h => ?_) fun h => hquery h.1
    obtain ⟨hits, hsearch, htop⟩ := h SliceSort.strict
    unfold search at hsearch
    rw [if_neg (by simp [hk, hne]), if_pos hquery] at hsearch
    obtain rfl := Option.some.inj hsearch
    have hlen := htop.length
    rw [List.length_nil, ranked, List.length_map] at hlen
    have hpos := List.length_pos_iff.mpr hne
    omega
  simp only [hquery, true_and]
  by_cases hnum : ∀ s ∈ (idx.scores query : List (Score S)), s ≠ .nan
  · exact iff_of_true (fun _ => search_of_nums hk hne hquery hnum) (Or.inl hnum)
  simp only [hnum, false_or]
  by_cases hsame : ∀ x y, Score.num x ∈ (idx.scores query : List (Score S)) →
      Score.num y ∈ (idx.scores query : List (Score S)) → x = y
  · rw [and_iff_right hsame, ← topK_ranked_iff hsame]
    constructor
    · intro h
      obtain ⟨hits, hsearch, htop⟩ := h SliceSort.strict
      let _ := SliceSort.strict
      rw [search_of_same hk hne hquery hsame] at hsearch
      obtain rfl := Option.some.inj hsearch
      exact htop
    · exact fun htop _ => ⟨_, search_of_same hk hne hquery hsame, htop⟩
  · -- two different numbers and a score that is none are no total order: the sort may panic
    refine iff_of_false (fun h => ?_) fun h => hsame h.1
    obtain ⟨hits, hsearch, -⟩ := h SliceSort.strict
    push Not at hnum hsame
    obtain ⟨s, hnan, rfl⟩ := hnum
    obtain ⟨x, y, hx, hy, hxy⟩ := hsame
    have hscored : ∀ {s : Score S}, s ∈ idx.scores query → ∃ i, (i, s) ∈ idx.scored query := by
      intro s hs
      rw [← snd_scored] at hs
      obtain ⟨⟨i, _⟩, hp, rfl⟩ := List.mem_map.mp hs
      exact ⟨i, hp⟩
    obtain ⟨i, hi⟩ := hscored hx
    obtain ⟨j, hj⟩ := hscored hnan
    obtain ⟨k, hk'⟩ := hscored hy
    have hpanic : SliceSort.strict.sortBy compareScored (idx.scored query) = none :=
      if_neg (not_totalOn hi hj hk' hxy)
    unfold search at hsearch
    rw [if_neg (by simp [hk, hne]), if_neg (not_not.mpr hquery), hpanic] at hsearch
    cases hsearch

end

private def unknown : VectorRecord := ⟨"http://x/unknown", [⟨0x7FC00000#32⟩], .null⟩

private def same : VectorRecord := ⟨"http://x/same", [F32.one], .null⟩

/-- A record without a score stands before the one that is the query itself, and every sort leaves
it there. -/
theorem nan_hides_best :
    let _ := Similarity.signs
    (∀ _ : SliceSort, (VectorIndex.mk [unknown, same] (some 1)).search [F32.one] 1 =
      some [(unknown, (Score.nan : Score Int))]) ∧
    ¬TopK 1 ((VectorIndex.mk [unknown, same] (some 1)).ranked [F32.one])
      [(unknown, (Score.nan : Score Int))] := by
  intro _
  refine ⟨fun _ => ?_, fun h => ?_⟩
  · rw [search_of_same Nat.one_ne_zero (List.cons_ne_nil _ _) (by decide)]
    · rfl
    · have hscores : (VectorIndex.mk [unknown, same] (some 1)).scores [F32.one] =
          [Score.nan, .num (1 : Int)] := by decide
      rw [hscores]
      simp
  · obtain ⟨omitted, hperm, hbest⟩ := h.best
    have hsame : (same, Score.num (1 : Int)) ∈ [(unknown, Score.nan)] ++ omitted :=
      hperm.mem_iff.mpr (List.mem_cons_of_mem _ List.mem_cons_self)
    rcases List.mem_append.mp hsame with hmem | hmem
    · have hscore : Score.num 1 = (Score.nan : Score Int) :=
        congrArg Prod.snd (List.mem_singleton.mp hmem)
      cases hscore
    · exact hbest _ List.mem_cons_self _ hmem

end VectorIndex

end AtomrOntology
