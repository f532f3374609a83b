import Mathlib

/-!
# Depth-first search

What holds between two steps of a search that keeps the nodes it has yet to look at on a stack:
all nodes seen or stacked are reached from the start, and whatever follows a node that was seen is
seen or stacked. Each node is expanded once, which bounds the number of steps. A search that
looks at the successors of a node before anything else on the stack lists the nodes in preorder.
-/

namespace DepthFirst

variable {α : Type*} {next : α → List α} {start x : α} {seen : Set α} {stack pushed : List α}

/-- The edges of a graph given by its successor lists. -/
def Arc (next : α → List α) (x y : α) : Prop := y ∈ next x

/-- The nodes seen and the nodes stacked by a search. -/
structure Frontier (next : α → List α) (start : α) (seen : Set α) (stack : List α) : Prop where
  begun : start ∈ seen ∨ start ∈ stack
  reached : ∀ x, x ∈ seen ∨ x ∈ stack → Relation.ReflTransGen (Arc next) start x
  closed : ∀ x ∈ seen, ∀ y ∈ next x, y ∈ seen ∨ y ∈ stack

theorem Frontier.init : Frontier next start ∅ [start] where
  begun := Or.inr List.mem_cons_self
  reached x hx := by
    obtain hx | hx := hx
    · exact absurd hx (Set.notMem_empty x)
    · obtain rfl := List.mem_singleton.mp hx
      exact .refl
  closed x hx := absurd hx (Set.notMem_empty x)

/-- A node that was seen before is dropped. -/
theorem Frontier.skip (h : Frontier next start seen (x :: stack)) (hx : x ∈ seen) :
    Frontier next start seen stack := by
  have hdrop : ∀ y, y ∈ seen ∨ y ∈ x :: stack → y ∈ seen ∨ y ∈ stack := by
    intro y hy
    rcases hy with hy | hy
    · exact Or.inl hy
    · rcases List.mem_cons.mp hy with rfl | hy
      · exact Or.inl hx
      · exact Or.inr hy
  refine ⟨hdrop _ h.begun, ?_, fun y hy z hz => hdrop z (h.closed y hy z hz)⟩
  intro y hy
  exact h.reached y (hy.imp_right (List.mem_cons_of_mem x))

/-- A new node is seen from now on, and its successors are stacked in any order. -/
theorem Frontier.expand (h : Frontier next start seen (x :: stack))
    (hpushed : ∀ y, y ∈ pushed ↔ y ∈ next x) :
    Frontier next start (insert x seen) (pushed ++ stack) := by
  have hkeep : ∀ y, y ∈ seen ∨ y ∈ x :: stack → y ∈ insert x seen ∨ y ∈ pushed ++ stack := by
    intro y hy
    rcases hy with hy | hy
    · exact Or.inl (Set.mem_insert_of_mem x hy)
    · rcases List.mem_cons.mp hy with rfl | hy
      · exact Or.inl (Set.mem_insert y seen)
      · exact Or.inr (List.mem_append_right pushed hy)
  have hself := h.reached x (Or.inr List.mem_cons_self)
  refine ⟨hkeep _ h.begun, ?_, ?_⟩
  · intro y hy
    rcases hy with hy | hy
    · rcases hy with rfl | hy
      · exact hself
      · exact h.reached y (Or.inl hy)
    · rcases List.mem_append.mp hy with hy | hy
      · exact hself.tail ((hpushed y).mp hy)
      · exact h.reached y (Or.inr (List.mem_cons_of_mem x hy))
  · intro y hy z hz
    rcases hy with rfl | hy
    · exact Or.inr (List.mem_append_left stack ((hpushed z).mpr hz))
    · exact hkeep z (h.closed y hy z hz)

/-- A search with an empty stack has seen all nodes that can be reached. -/
theorem Frontier.mem_iff (h : Frontier next start seen []) :
    x ∈ seen ↔ Relation.ReflTransGen (Arc next) start x := by
  have hnil : ∀ y, y ∈ seen ∨ y ∈ [] → y ∈ seen := fun y hy => hy.resolve_right List.not_mem_nil
  constructor
  · intro hx
    exact h.reached x (Or.inl hx)
  · intro hx
    induction hx with
    | refl => exact hnil _ h.begun
    | tail _ hstep ih => exact hnil _ (h.closed _ ih _ hstep)

open Classical in
/-- How many nodes a node will stack: none once it was seen. -/
noncomputable def weight (next : α → List α) (seen : Set α) (x : α) : ℕ :=
  if x ∈ seen then 0 else (next x).length

/-- How many steps are left: what is stacked, and what the nodes not seen yet will stack. -/
noncomputable def work (next : α → List α) (nodes : List α) (seen : Set α) (stack : List α) : ℕ :=
  stack.length + (nodes.map (weight next seen)).sum

variable {nodes : List α}

/-- What was seen weighs nothing. -/
theorem weight_of_mem (hx : x ∈ seen) : weight next seen x = 0 := if_pos hx

/-- What was not seen weighs as much as it leads to. -/
theorem weight_of_not_mem (hx : x ∉ seen) : weight next seen x = (next x).length := if_neg hx

/-- Seeing more weighs less. -/
theorem weight_insert_le (y : α) : weight next (insert x seen) y ≤ weight next seen y := by
  by_cases hy : y ∈ insert x seen
  · rw [weight_of_mem hy]
    omega
  · rw [weight_of_not_mem hy, weight_of_not_mem fun h => hy (Set.mem_insert_of_mem x h)]

theorem work_empty : work next nodes ∅ [start] = 1 + (nodes.map fun x => (next x).length).sum := by
  have hall : weight next ∅ = fun x => (next x).length :=
    funext fun x => weight_of_not_mem (Set.notMem_empty x)
  rw [work, hall, List.length_singleton]

/-- Skipping what was seen is one step less. -/
theorem work_skip : work next nodes seen (x :: stack) = work next nodes seen stack + 1 := by
  rw [work, work, List.length_cons]
  omega

/-- To expand a node is a step, if the nodes that have successors are listed. -/
theorem work_expand (hnodes : next x ≠ [] → x ∈ nodes) (hx : x ∉ seen)
    (hpushed : pushed.length = (next x).length) :
    work next nodes (insert x seen) (pushed ++ stack) + 1 ≤ work next nodes seen (x :: stack) := by
  have hle : ∀ l : List α,
      (l.map (weight next (insert x seen))).sum ≤ (l.map (weight next seen)).sum :=
    fun l => List.sum_le_sum fun y _ => weight_insert_le y
  have hdrop : (nodes.map (weight next (insert x seen))).sum + (next x).length ≤
      (nodes.map (weight next seen)).sum := by
    by_cases hnil : next x = []
    · rw [hnil, List.length_nil, Nat.add_zero]
      exact hle nodes
    · -- the node itself is in the list, so its successors are counted there
      obtain ⟨before, after, rfl⟩ := List.append_of_mem (hnodes hnil)
      have hbefore := hle before
      have hafter := hle after
      simp only [List.map_append, List.map_cons, List.sum_append, List.sum_cons,
        weight_of_not_mem hx, weight_of_mem (Set.mem_insert x seen)]
      omega
  rw [work, work, List.length_append, List.length_cons, hpushed]
  omega

/-- Visiting nodes one after the other, each followed by all that its successors lead to. A node
that was visited before is passed over. -/
inductive Preorder (next : α → List α) : List α → List α → List α → Prop
  | done (out : List α) : Preorder next out [] out
  | skip {x : α} {out rest final : List α} : x ∈ out → Preorder next out rest final →
      Preorder next out (x :: rest) final
  | visit {x : α} {out rest mid final : List α} :
      x ∉ out → Preorder next (out ++ [x]) (next x) mid →
      Preorder next mid rest final → Preorder next out (x :: rest) final

namespace Preorder

variable {out mid final final' xs rest : List α}

/-- Nodes are visited in parts, too. -/
theorem split (h : Preorder next out (xs ++ rest) final) :
    ∃ mid, Preorder next out xs mid ∧ Preorder next mid rest final := by
  induction xs generalizing out with
  | nil => exact ⟨out, .done out, h⟩
  | cons x xs ih =>
    cases h with
    | skip hx h =>
      obtain ⟨mid, hxs, hrest⟩ := ih h
      exact ⟨mid, .skip hx hxs, hrest⟩
    | visit hx hnext h =>
      obtain ⟨mid, hxs, hrest⟩ := ih h
      exact ⟨mid, .visit hx hnext hxs, hrest⟩

/-- To put the successors of a new node on top of the stack is to visit the node. -/
theorem expand (hx : x ∉ out) (h : Preorder next (out ++ [x]) (next x ++ rest) final) :
    Preorder next out (x :: rest) final := by
  obtain ⟨mid, hnext, hrest⟩ := h.split
  exact .visit hx hnext hrest

/-- There is one preorder. -/
theorem unique (h : Preorder next out xs final) (h' : Preorder next out xs final') :
    final = final' := by
  induction h generalizing final' with
  | done out =>
    cases h'
    rfl
  | skip hx _ ih =>
    cases h' with
    | skip _ h' => exact ih h'
    | visit hnew => exact absurd hx hnew
  | visit hx _ _ ihnext ihrest =>
    cases h' with
    | skip hold => exact absurd hold hx
    | visit _ hnext' hrest' =>
      obtain rfl := ihnext hnext'
      exact ihrest hrest'

/-- It goes on from what it started with. -/
theorem starts (h : Preorder next out xs final) : out <+: final := by
  induction h with
  | done out => exact List.prefix_rfl
  | skip _ _ ih => exact ih
  | visit _ _ _ ihnext ihrest => exact (List.prefix_append _ _).trans (ihnext.trans ihrest)

/-- It lists nothing twice. -/
theorem nodup (h : Preorder next out xs final) (hout : out.Nodup) : final.Nodup := by
  induction h with
  | done out => exact hout
  | skip _ _ ih => exact ih hout
  | @visit x out _ _ _ hx _ _ ihnext ihrest =>
    have hnew : (out ++ [x]).Nodup :=
      List.nodup_append.mpr ⟨hout, List.nodup_singleton x, fun y hy z hz hyz =>
        hx (List.mem_singleton.mp hz ▸ hyz ▸ hy)⟩
    exact ihrest (ihnext hnew)

/-- A search from one node lists that node first. -/
theorem head? (h : Preorder next [] [start] final) : final.head? = some start := by
  cases h with
  | skip hold => cases hold
  | visit _ hnext hrest =>
    obtain ⟨tail, rfl⟩ := hnext.starts.trans hrest.starts
    rfl

end Preorder

end DepthFirst
