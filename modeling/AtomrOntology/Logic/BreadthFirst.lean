import AtomrOntology.Logic.Walk

/-!
# Breadth-first search

What holds between two steps of a breadth-first search: the nodes taken from the queue and
the nodes that wait in it, in this order, are distinct and sorted by their distance from the
start, and they are all nodes as close to the start as the first one that waits.
-/

namespace Walk

variable {α : Type*} {R : α → α → Prop} {start x y q : α} {n : ℕ} {done queue rest fresh : List α}

/-- Whatever the lengths of the shortest walks are, the one to the first node is no longer. -/
def NoFarther (R : α → α → Prop) (start x y : α) : Prop :=
  ∀ m n, AtDistance R start m x → AtDistance R start n y → m ≤ n

theorem AtDistance.noFarther {m : ℕ} (hx : AtDistance R start m x) (hy : AtDistance R start n y)
    (h : m ≤ n) : NoFarther R start x y := by
  intro m' n' hx' hy'
  have hm := hx.unique hx'
  have hn := hy.unique hy'
  omega

theorem exists_atDistance_of_reflTransGen (h : Relation.ReflTransGen R start x) :
    ∃ n, AtDistance R start n x := by
  have hsteps : ∃ n, Steps R start n x := by
    induction h with
    | refl => exact ⟨0, .refl⟩
    | tail _ hr ih =>
      obtain ⟨n, hs⟩ := ih
      exact ⟨n + 1, hs.snoc hr⟩
  obtain ⟨n, hs⟩ := hsteps
  obtain ⟨m, -, hd⟩ := hs.exists_atDistance
  exact ⟨m, hd⟩

theorem AtDistance.zero_self : AtDistance R start 0 start := atDistance_zero.mpr rfl

/-- The nodes done and the nodes in the queue of a breadth-first search. -/
structure Front (R : α → α → Prop) (start : α) (done queue : List α) : Prop where
  nodup : (done ++ queue).Nodup
  first : (done ++ queue).head? = some start
  reached : ∀ x ∈ done ++ queue, Relation.ReflTransGen R start x
  closed : ∀ x ∈ done, ∀ y, R x y → y ∈ done ++ queue
  sorted : (done ++ queue).Pairwise (NoFarther R start)
  inner : ∀ q n, queue.head? = some q → AtDistance R start n q →
    ∀ y, Within R start n y → y ∈ done ++ queue
  outer : ∀ q n, queue.head? = some q → AtDistance R start n q →
    ∀ y ∈ done ++ queue, Within R start (n + 1) y

theorem Front.init : Front R start [] [start] where
  nodup := List.nodup_singleton start
  first := rfl
  reached x hx := by
    obtain rfl := List.mem_singleton.mp hx
    exact .refl
  closed x hx := by cases hx
  sorted := List.pairwise_singleton _ start
  inner q n hq hn y hy := by
    obtain rfl := Option.some.inj hq
    obtain rfl := hn.unique .zero_self
    exact List.mem_singleton.mpr (within_zero.mp hy)
  outer q n hq hn y hy := by
    obtain rfl := List.mem_singleton.mp hy
    exact ⟨0, Nat.zero_le _, .refl⟩

/-- The successors of a node that are new are one step farther than the node. -/
theorem Front.atDistance_fresh (h : Front R start done (q :: rest)) (hq : AtDistance R start n q)
    (hr : R q y) (hy : y ∉ done ++ q :: rest) : AtDistance R start (n + 1) y :=
  atDistance_succ.mpr ⟨⟨q, hq, hr⟩, fun hw => hy (h.inner q n rfl hq y hw)⟩

/-- Everything in the next layer has been seen once a node of that layer is the next one. -/
theorem Front.next_layer (h : Front R start done (q :: rest)) (hq : AtDistance R start n q)
    (hlayer : ∀ x ∈ rest, ∃ m, AtDistance R start m x ∧ n < m)
    (hall : ∀ y, R q y → y ∈ done ++ q :: rest ∨ y ∈ fresh) (hy : Within R start (n + 1) y) :
    y ∈ done ++ q :: rest ∨ y ∈ fresh := by
  rcases within_succ.mp hy with hle | hnext
  · exact Or.inl (h.inner q n rfl hq y hle)
  · obtain ⟨⟨b, hb, hr⟩, -⟩ := atDistance_succ.mp hnext
    have hmem := h.inner q n rfl hq b ⟨n, le_rfl, hb.steps⟩
    rcases List.mem_append.mp hmem with hdone | hwait
    · exact Or.inl (h.closed b hdone y hr)
    · rcases List.mem_cons.mp hwait with rfl | hrest
      · exact hall y hr
      · obtain ⟨m, hm, hlt⟩ := hlayer b hrest
        have := hm.unique hb
        omega

/-- The node after the next one is in its layer, or in the layer after it and the first of
that layer. -/
theorem Front.next_node {q' : α} {m : ℕ} (h : Front R start done (q :: rest))
    (hq : AtDistance R start n q) (hnew : ∀ y ∈ fresh, AtDistance R start (n + 1) y)
    (hq' : (rest ++ fresh).head? = some q') (hm : AtDistance R start m q') :
    m = n ∨ m = n + 1 ∧ ∀ x ∈ rest, ∃ k, AtDistance R start k x ∧ n < k := by
  cases rest with
  | nil => exact Or.inr ⟨hm.unique (hnew q' (List.mem_of_head? hq')), fun x hx => by cases hx⟩
  | cons r rest =>
    obtain rfl := Option.some.inj hq'
    have hsorted := List.pairwise_cons.mp (List.pairwise_append.mp h.sorted).2.1
    have hle := hsorted.1 r List.mem_cons_self n m hq hm
    obtain ⟨k, hk, hs⟩ := h.outer q n rfl hq r (by simp)
    have hge : m ≤ n + 1 := by
      by_contra hlt
      exact hm.shortest k (by omega) hs
    by_cases heq : m = n
    · exact Or.inl heq
    · refine Or.inr ⟨by omega, fun x hx => ?_⟩
      obtain ⟨k, hk⟩ := exists_atDistance_of_reflTransGen (h.reached x (by simp [hx]))
      refine ⟨k, hk, ?_⟩
      rcases List.mem_cons.mp hx with rfl | hx
      · have := hm.unique hk
        omega
      · have := (List.pairwise_cons.mp hsorted.2).1 x hx m k hm hk
        omega

/-- One step of the search: the next node is done and its new successors join the queue. -/
theorem Front.pop (h : Front R start done (q :: rest)) (hnodup : fresh.Nodup)
    (hfresh : ∀ y ∈ fresh, R q y ∧ y ∉ done ++ q :: rest)
    (hall : ∀ y, R q y → y ∈ done ++ q :: rest ∨ y ∈ fresh) :
    Front R start (done ++ [q]) (rest ++ fresh) := by
  obtain ⟨n, hq⟩ := exists_atDistance_of_reflTransGen (h.reached q (by simp))
  have hlist : done ++ [q] ++ (rest ++ fresh) = done ++ q :: rest ++ fresh := by simp
  have hmem : ∀ y, y ∈ done ++ q :: rest ∨ y ∈ fresh → y ∈ done ++ [q] ++ (rest ++ fresh) := by
    intro y hy
    rwa [hlist, List.mem_append]
  have hnew : ∀ y ∈ fresh, AtDistance R start (n + 1) y := fun y hy =>
    h.atDistance_fresh hq (hfresh y hy).1 (hfresh y hy).2
  have hhead := fun q' m => @Front.next_node _ _ _ q n done rest fresh q' m h hq hnew
  refine ⟨?_, ?_, ?_, ?_, ?_, ?_, ?_⟩
  · rw [hlist, List.nodup_append]
    refine ⟨h.nodup, hnodup, fun a ha b hb hab => ?_⟩
    subst hab
    exact (hfresh a hb).2 ha
  · rw [hlist, List.head?_append, h.first]
    rfl
  · intro x hx
    rw [hlist, List.mem_append] at hx
    rcases hx with hx | hx
    · exact h.reached x hx
    · exact (h.reached q (by simp)).tail (hfresh x hx).1
  · intro x hx y hr
    rcases List.mem_append.mp hx with hx | hx
    · exact hmem y (Or.inl (h.closed x hx y hr))
    · obtain rfl := List.mem_singleton.mp hx
      exact hmem y (hall y hr)
  · rw [hlist, List.pairwise_append]
    refine ⟨h.sorted, ?_, fun x hx y hy => ?_⟩
    · rw [List.pairwise_iff_getElem]
      intro i j hi hj _
      exact (hnew _ (List.getElem_mem hi)).noFarther (hnew _ (List.getElem_mem hj)) le_rfl
    · obtain ⟨k, hk, hs⟩ := h.outer q n rfl hq x hx
      obtain ⟨m, hm, hd⟩ := hs.exists_atDistance
      exact hd.noFarther (hnew y hy) (by omega)
  · intro q' m hq' hm y hy
    rcases hhead q' m hq' hm with rfl | ⟨rfl, hlayer⟩
    · exact hmem y (Or.inl (h.inner q m rfl hq y hy))
    · exact hmem y (h.next_layer hq hlayer hall hy)
  · intro q' m hq' hm y hy
    have hle : n ≤ m := by
      rcases hhead q' m hq' hm with rfl | ⟨rfl, -⟩ <;> omega
    rw [hlist, List.mem_append] at hy
    rcases hy with hy | hy
    · obtain ⟨k, hk, hs⟩ := h.outer q n rfl hq y hy
      exact ⟨k, by omega, hs⟩
    · exact ⟨n + 1, by omega, (hnew y hy).steps⟩

/-- A search with an empty queue has done all nodes that can be reached. -/
theorem Front.mem_iff (h : Front R start done []) : x ∈ done ↔ Relation.ReflTransGen R start x := by
  have hdone : done ++ [] = done := List.append_nil done
  constructor
  · intro hx
    exact h.reached x (hdone.symm ▸ hx)
  · intro hx
    induction hx with
    | refl => exact List.mem_of_head? (hdone ▸ h.first)
    | tail _ hr ih => exact hdone ▸ h.closed _ ih _ hr

/-- A search in a finite universe takes no more steps than there are nodes. -/
theorem Front.length_le (h : Front R start done queue) {nodes : List α}
    (hnodes : ∀ x, Relation.ReflTransGen R start x → x ∈ nodes) :
    done.length + queue.length ≤ nodes.length := by
  rw [← List.length_append]
  exact (h.nodup.subperm fun x hx => hnodes x (h.reached x hx)).length_le

end Walk
