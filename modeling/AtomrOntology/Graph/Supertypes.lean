import AtomrOntology.Graph.Schema
import AtomrOntology.Logic.DepthFirst

/-!
# Supertypes

The walk along the declared supertypes of a node type. It ends on every schema, also where
supertypes form cycles, and lists the types that are reached, each once, in preorder.
-/

namespace AtomrOntology

namespace Schema

variable {s : Schema}

/-- The supertypes that a type declares; none if it is not declared itself. -/
def supertypes (s : Schema) (name : String) : List String :=
  match s.nodeTypes[name]? with
  | some ty => ty.supertypes
  | none => []

/-- The loop of the walk, or nothing if the fuel runs out first. The top of the stack is the head
of the list. -/
def supertypesLoop (s : Schema) : Nat → List String → List String → Option (List String)
  | _, [], out => some out
  | 0, _ :: _, _ => none
  | fuel + 1, n :: stack, out =>
    if out.contains n then supertypesLoop s fuel stack out
    else supertypesLoop s fuel (s.supertypes n ++ stack) (out ++ [n])

/-- As many steps as there are declared supertypes, and one for the start. -/
def supertypesFuel (s : Schema) : Nat :=
  1 + (s.nodeTypes.keys.map fun name => (s.supertypes name).length).sum

/-- The type itself, then its supertypes in declared order, depth first. -/
def supertypesOf (s : Schema) (name : String) : List String :=
  (s.supertypesLoop s.supertypesFuel [name] []).getD []

/-- A type is another one, or inherits from it. -/
def SubtypeOf (s : Schema) : String → String → Prop :=
  Relation.ReflTransGen (DepthFirst.Arc s.supertypes)

theorem mem_keys_of_supertypes {name : String} (h : s.supertypes name ≠ []) :
    name ∈ s.nodeTypes.keys := by
  unfold supertypes at h
  rw [Std.ExtTreeMap.mem_keys, Std.ExtTreeMap.mem_iff_isSome_getElem?]
  cases hty : s.nodeTypes[name]? with
  | some ty => rfl
  | none =>
    rw [hty] at h
    exact absurd rfl h

/-- With enough fuel the loop returns, and lists what is reached. -/
theorem supertypesLoop_spec {start : String} {fuel : Nat} {stack out : List String}
    (hfuel : DepthFirst.work s.supertypes s.nodeTypes.keys {x | x ∈ out} stack ≤ fuel)
    (h : DepthFirst.Frontier s.supertypes start {x | x ∈ out} stack) :
    ∃ types, s.supertypesLoop fuel stack out = some types ∧
      ∀ ty, ty ∈ types ↔ s.SubtypeOf start ty := by
  induction fuel generalizing stack out with
  | zero =>
    cases stack with
    | nil => exact ⟨out, rfl, fun ty => h.mem_iff⟩
    | cons n stack =>
      rw [DepthFirst.work_skip] at hfuel
      omega
  | succ fuel ih =>
    cases stack with
    | nil => exact ⟨out, rfl, fun ty => h.mem_iff⟩
    | cons n stack =>
      rw [supertypesLoop]
      by_cases hseen : n ∈ out
      · rw [if_pos (List.contains_iff_mem.mpr hseen)]
        rw [DepthFirst.work_skip] at hfuel
        exact ih (by omega) (h.skip hseen)
      · rw [if_neg (fun hmem => hseen (List.contains_iff_mem.mp hmem))]
        have hout : {x | x ∈ out ++ [n]} = insert n {x | x ∈ out} := by
          ext x
          simp [or_comm]
        have hwork : DepthFirst.work s.supertypes s.nodeTypes.keys (insert n {x | x ∈ out})
            (s.supertypes n ++ stack) + 1 ≤
              DepthFirst.work s.supertypes s.nodeTypes.keys {x | x ∈ out} (n :: stack) :=
          DepthFirst.work_expand mem_keys_of_supertypes hseen rfl
        refine ih ?_ ?_
        · rw [hout]
          omega
        · rw [hout]
          exact h.expand fun y => Iff.rfl

theorem supertypesLoop_fuel (s : Schema) (name : String) :
    s.supertypesLoop s.supertypesFuel [name] [] = some (s.supertypesOf name) ∧
      ∀ ty, ty ∈ s.supertypesOf name ↔ s.SubtypeOf name ty := by
  have hnone : {x : String | x ∈ ([] : List String)} = ∅ := by simp
  obtain ⟨types, hloop, hmem⟩ := @supertypesLoop_spec s name s.supertypesFuel [name] []
    (by rw [hnone, DepthFirst.work_empty, supertypesFuel]) (hnone ▸ .init)
  have heq : s.supertypesOf name = types := by
    rw [supertypesOf, hloop]
    rfl
  rw [heq]
  exact ⟨hloop, hmem⟩

/-- The walk lists a type and everything that it inherits from. -/
theorem mem_supertypesOf {name ty : String} : ty ∈ s.supertypesOf name ↔ s.SubtypeOf name ty :=
  (s.supertypesLoop_fuel name).2 ty

/-- What the loop returns are the types of the stack and what they inherit from, in preorder. -/
theorem supertypesLoop_preorder {fuel : Nat} {stack out types : List String}
    (h : s.supertypesLoop fuel stack out = some types) :
    DepthFirst.Preorder s.supertypes out stack types := by
  induction fuel generalizing stack out with
  | zero =>
    cases stack with
    | nil =>
      obtain rfl := Option.some.inj h
      exact .done out
    | cons n stack => cases h
  | succ fuel ih =>
    cases stack with
    | nil =>
      obtain rfl := Option.some.inj h
      exact .done out
    | cons n stack =>
      rw [supertypesLoop] at h
      by_cases hseen : n ∈ out
      · rw [if_pos (List.contains_iff_mem.mpr hseen)] at h
        exact .skip hseen (ih h)
      · rw [if_neg (fun hmem => hseen (List.contains_iff_mem.mp hmem))] at h
        exact .expand hseen (ih h)

/-- The walk ends on every schema, however many steps it is allowed beyond those it takes. It lists
the type itself first and everything that it inherits from, each type once, in depth-first preorder
along the declared order of supertypes. -/
theorem supertypesOf_walks (s : Schema) (name : String) :
    (∀ fuel, s.supertypesFuel ≤ fuel →
        s.supertypesLoop fuel [name] [] = some (s.supertypesOf name)) ∧
      DepthFirst.Preorder s.supertypes [] [name] (s.supertypesOf name) ∧
      (s.supertypesOf name).head? = some name ∧ (s.supertypesOf name).Nodup ∧
      ∀ ty, ty ∈ s.supertypesOf name ↔ s.SubtypeOf name ty := by
  have hpre := supertypesLoop_preorder (s.supertypesLoop_fuel name).1
  refine ⟨fun fuel hfuel => ?_, hpre, hpre.head?, hpre.nodup List.nodup_nil, fun ty =>
    mem_supertypesOf⟩
  have hnone : {x : String | x ∈ ([] : List String)} = ∅ := by simp
  obtain ⟨types, hloop, -⟩ := @supertypesLoop_spec s name fuel [name] []
    (by rw [hnone, DepthFirst.work_empty]; exact hfuel) (hnone ▸ .init)
  rw [hloop, (supertypesLoop_preorder hloop).unique hpre]

end Schema

end AtomrOntology
