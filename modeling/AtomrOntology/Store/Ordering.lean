import AtomrOntology.Logic.StableSort
import AtomrOntology.Store.Joins

/-!
# Ordered rows and pages

A plan compares rows key by key, each key in its own direction. What it returns is a window of
the stable sort of the rows, so its pages make up the ordered result.
-/

namespace AtomrOntology

/-- How two rows compare under one sort key. -/
def compareKey (key : String × SortOrder) (a b : MatchRow) : Ordering :=
  match key.2 with
  | .ascending => compare a.nodes[key.1]? b.nodes[key.1]?
  | .descending => compare b.nodes[key.1]? a.nodes[key.1]?

instance compareKey_trans (key : String × SortOrder) : Std.TransCmp (compareKey key) := by
  obtain ⟨binding, direction⟩ := key
  cases direction with
  | ascending =>
    exact inferInstanceAs (Std.TransCmp (compareOn fun row : MatchRow => row.nodes[binding]?))
  | descending =>
    exact inferInstanceAs (Std.TransCmp fun a b : MatchRow =>
      compareOn (fun row : MatchRow => row.nodes[binding]?) b a)

/-- Rows are compared by the first key, and then by the others. -/
theorem compareRows_cons (key : String × SortOrder) (order : List (String × SortOrder)) :
    compareRows (key :: order) = compareLex (compareKey key) (compareRows order) := by
  obtain ⟨binding, direction⟩ := key
  funext a b
  have hswap : compare b.nodes[binding]? a.nodes[binding]? =
      (compare a.nodes[binding]? b.nodes[binding]?).swap := Std.OrientedCmp.eq_swap
  unfold compareRows compareLex compareKey
  cases direction with
  | ascending => cases compare a.nodes[binding]? b.nodes[binding]? <;> rfl
  | descending =>
    simp only [hswap]
    cases compare a.nodes[binding]? b.nodes[binding]? <;> rfl

/-- Rows are compared in a total preorder. -/
instance compareRows_trans (order : List (String × SortOrder)) :
    Std.TransCmp (compareRows order) := by
  induction order with
  | nil =>
    have oriented : Std.OrientedCmp (compareRows []) := ⟨rfl⟩
    exact ⟨fun _ _ => rfl⟩
  | cons key order ih =>
    rw [compareRows_cons]
    infer_instance

/-- One binding comes before another one in a direction. A missing binding is the least. -/
def Precedes : SortOrder → Option NodeId → Option NodeId → Prop
  | .ascending, none, some _ => True
  | .ascending, some x, some y => compare x y = .lt
  | .descending, some _, none => True
  | .descending, some x, some y => compare y x = .lt
  | _, _, _ => False

/-- The rows have the same bindings for some keys, and the next key tells them apart. -/
def RowPrecedes (order : List (String × SortOrder)) (a b : MatchRow) : Prop :=
  ∃ before key after, order = before ++ key :: after ∧
    (∀ k ∈ before, a.nodes[k.1]? = b.nodes[k.1]?) ∧
    Precedes key.2 a.nodes[key.1]? b.nodes[key.1]?

/-- In ascending order the lesser binding comes first. -/
theorem precedes_ascending_iff (x y : Option NodeId) :
    Precedes .ascending x y ↔ compare x y = .lt := by
  match x, y with
  | none, none => exact iff_of_false id Ordering.noConfusion
  | none, some y => exact iff_of_true trivial rfl
  | some x, none => exact iff_of_false id Ordering.noConfusion
  | some x, some y => exact Iff.rfl

/-- In descending order the greater one comes first. -/
theorem precedes_descending_iff (x y : Option NodeId) :
    Precedes .descending x y ↔ compare y x = .lt := by
  match x, y with
  | none, none => exact iff_of_false id Ordering.noConfusion
  | none, some y => exact iff_of_false id Ordering.noConfusion
  | some x, none => exact iff_of_true trivial rfl
  | some x, some y => exact Iff.rfl

/-- A row is less under a key if its binding comes first. -/
theorem compareKey_eq_lt_iff {key : String × SortOrder} {a b : MatchRow} :
    compareKey key a b = .lt ↔ Precedes key.2 a.nodes[key.1]? b.nodes[key.1]? := by
  obtain ⟨binding, direction⟩ := key
  cases direction with
  | ascending => exact (precedes_ascending_iff _ _).symm
  | descending => exact (precedes_descending_iff _ _).symm

/-- Rows are equal under a key if they bind it alike. -/
theorem compareKey_eq_eq_iff {key : String × SortOrder} {a b : MatchRow} :
    compareKey key a b = .eq ↔ a.nodes[key.1]? = b.nodes[key.1]? := by
  have hcompare : ∀ x y : Option NodeId, compare x y = .eq ↔ x = y :=
    fun _ _ => Std.LawfulEqCmp.compare_eq_iff_eq
  obtain ⟨binding, direction⟩ := key
  cases direction with
  | ascending => exact hcompare _ _
  | descending => exact (hcompare _ _).trans eq_comm

/-- A row comes first if the first key with different bindings says so. -/
theorem compareRows_eq_lt_iff {order : List (String × SortOrder)} {a b : MatchRow} :
    compareRows order a b = .lt ↔ RowPrecedes order a b := by
  induction order with
  | nil => simp [compareRows, RowPrecedes]
  | cons key order ih =>
    rw [compareRows_cons, compareLex, Ordering.then_eq_lt, compareKey_eq_lt_iff,
      compareKey_eq_eq_iff, ih]
    constructor
    · intro h
      rcases h with hlt | ⟨heq, before, k, after, rfl, hbefore, hk⟩
      · exact ⟨[], key, order, rfl, by simp, hlt⟩
      · refine ⟨key :: before, k, after, rfl, fun k' hk' => ?_, hk⟩
        rcases List.mem_cons.mp hk' with rfl | hk'
        · exact heq
        · exact hbefore k' hk'
    · intro h
      obtain ⟨before, k, after, horder, hbefore, hk⟩ := h
      cases before with
      | nil =>
        obtain ⟨rfl, rfl⟩ := List.cons.inj horder
        exact Or.inl hk
      | cons k' before =>
        obtain ⟨rfl, rfl⟩ := List.cons.inj horder
        exact Or.inr ⟨hbefore key List.mem_cons_self, before, k, after, rfl,
          fun k' hk' => hbefore k' (List.mem_cons_of_mem key hk'), hk⟩

/-- The rows `skip` up to `skip + limit`. -/
def window (skip : UInt64) (limit : Option UInt64) (rows : List MatchRow) : List MatchRow :=
  match limit with
  | some n => page rows skip.toNat n.toNat
  | none => rows.drop skip.toNat

/-- The result is a window of the sorted rows, projected. -/
theorem applyOrdering_eq_window (rows : List MatchRow) (plan : TraversalPlan) :
    applyOrderingAndProjection rows plan = (window plan.skip plan.limit
      (rows.mergeSort fun a b => (compareRows plan.order a b).isLE)).map plan.columns := by
  have hsorted : (if plan.order.isEmpty then rows
      else rows.mergeSort fun a b => (compareRows plan.order a b).isLE) =
        rows.mergeSort fun a b => (compareRows plan.order a b).isLE := by
    split
    · rename_i hempty
      rw [List.isEmpty_iff.mp hempty]
      exact (List.mergeSort_of_pairwise (List.pairwise_of_forall fun _ _ => rfl)).symm
    · rfl
  have heq := applyOrdering_eq plan id rows
  rw [List.map_id] at heq
  rw [heq, arrange]
  simp only [id, hsorted]
  rfl

instance (plan : TraversalPlan) (name : String) : Decidable (plan.Returns name) :=
  inferInstanceAs (Decidable (_ ∨ _))

/-- What a plan makes of rows: it compares them in a total preorder, by the first key whose
bindings differ, and returns a window of their stable sort, with the columns it names. Its
pages make up all it returns without a window. -/
structure Arranges (plan : TraversalPlan) (rows : List MatchRow) : Prop where
  preorder : Std.TransCmp (compareRows plan.order)
  first : ∀ a b, compareRows plan.order a b = .lt ↔ RowPrecedes plan.order a b
  sorts : ∃ sorted, StableSort (compareRows plan.order) rows sorted
  window : ∀ sorted, StableSort (compareRows plan.order) rows sorted →
    applyOrderingAndProjection rows plan =
      (AtomrOntology.window plan.skip plan.limit sorted).map plan.columns
  columns : ∀ row name,
    ((plan.columns row).nodes[name]? = if plan.Returns name then row.nodes[name]? else none) ∧
    (plan.columns row).edges[name]? = if plan.Returns name then row.edges[name]? else none
  pages : ∀ size : UInt64, 0 < size →
    ((List.range (rows.length / size.toNat + 1)).map fun k => applyOrderingAndProjection rows
      { plan with skip := .ofNat (k * size.toNat), limit := some size }).flatten =
    applyOrderingAndProjection rows { plan with skip := 0, limit := none }

/-- A projected row has the bindings that are returned. -/
theorem TraversalPlan.columns_eq (plan : TraversalPlan) (row : MatchRow) (name : String) :
    ((plan.columns row).nodes[name]? = if plan.Returns name then row.nodes[name]? else none) ∧
    (plan.columns row).edges[name]? = if plan.Returns name then row.edges[name]? else none := by
  unfold columns
  by_cases hall : plan.returnColumns.isEmpty
  · have hreturns : plan.Returns name := Or.inl (List.isEmpty_iff.mp hall)
    rw [if_pos hall, if_pos hreturns, if_pos hreturns]
    exact ⟨rfl, rfl⟩
  · have hreturns : plan.Returns name ↔ name ∈ plan.returnColumns := by
      refine or_iff_right fun hnil => hall ?_
      rw [hnil]
      rfl
    simp only [if_neg hall, MatchRow.project, Std.ExtTreeMap.getElem?_filter', hreturns]
    by_cases hmem : name ∈ plan.returnColumns
    · cases row.nodes[name]? <;> cases row.edges[name]? <;> simp [hmem]
    · cases row.nodes[name]? <;> cases row.edges[name]? <;> simp [hmem]

/-- Rows are ordered, cut and projected, and pages make up the whole result. The length of the
vector of rows is a `usize`. -/
theorem arranges (plan : TraversalPlan) (rows : List MatchRow) (hrows : rows.length < 2 ^ 64) :
    Arranges plan rows := by
  have hsort : StableSort (compareRows plan.order) rows
      (rows.mergeSort fun a b => (compareRows plan.order a b).isLE) := stableSort_mergeSort rows
  refine ⟨inferInstance, fun a b => compareRows_eq_lt_iff, ⟨_, hsort⟩, fun sorted hsorted => ?_,
    plan.columns_eq, fun size hsize => ?_⟩
  · rw [applyOrdering_eq_window, hsort.unique hsorted]
  · have hpos : 0 < size.toNat := hsize
    have hpages : ∀ k ∈ List.range (rows.length / size.toNat + 1),
        applyOrderingAndProjection rows
            { plan with skip := .ofNat (k * size.toNat), limit := some size } =
          (page (rows.mergeSort fun a b => (compareRows plan.order a b).isLE)
            (k * size.toNat) size.toNat).map plan.columns := by
      intro k hk
      have hskip : k * size.toNat < 2 ^ 64 := by
        have hle : k ≤ rows.length / size.toNat := Nat.le_of_lt_succ (List.mem_range.mp hk)
        exact ((Nat.mul_le_mul_right _ hle).trans (Nat.div_mul_le_self _ _)).trans_lt hrows
      rw [applyOrdering_eq_window, AtomrOntology.window, UInt64.toNat_ofNat_of_lt' hskip]
      rfl
    have hwhole : applyOrderingAndProjection rows { plan with skip := 0, limit := none } =
        (rows.mergeSort fun a b => (compareRows plan.order a b).isLE).map plan.columns :=
      applyOrdering_eq_window rows _
    have hflat := congrArg (List.map plan.columns)
      (flatten_pages hpos (rows.mergeSort fun a b => (compareRows plan.order a b).isLE))
    rw [List.map_flatten, List.map_map, List.length_mergeSort] at hflat
    rw [List.map_congr_left hpages, hwhole, ← hflat]
    rfl

/-- A row that binds `a`, `b`, both or neither. -/
private def rowOf (a b : Option NodeId) : MatchRow :=
  ⟨((∅ : BTreeMap String NodeId).alter "a" fun _ => a).alter "b" fun _ => b, ∅⟩

/-- The last page of five rows, some of which bind only one of the names they are ordered by. -/
theorem arranges_mixed :
    Arranges ⟨.any, [], ["b"], [("a", .descending), ("b", .ascending)], 3, some 2⟩
      [rowOf (some (.filled 1)) (some (.filled 2)), rowOf none (some (.filled 3)), rowOf none none,
        rowOf (some (.filled 1)) none, rowOf (some (.filled 2)) (some (.filled 1))] :=
  arranges _ _ (by decide)

end AtomrOntology
