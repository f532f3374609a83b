import AtomrOntology.Extract.Cache

/-!
# Least recently used

Calls one after another, with an inner backend that always answers. The prompts in the order of
their last use, and the response each was last given, are recorded beside the cache.
-/

namespace AtomrOntology

/-- A call: the prompt, and what the inner backend answers if it is asked. -/
structure Completion where
  prompt : Prompt
  response : String
deriving DecidableEq, Repr

/-- A backend with what is recorded of its calls: the distinct prompts, the most recently used one
first, and the response that the inner backend gave when a prompt was last computed. -/
structure Recorded where
  backend : CachedBackend
  recent : List Prompt
  computed : Prompt → Option String

namespace Recorded

open CachedBackend

/-- No call was made yet. -/
def start (capacity : Nat) : Recorded := ⟨.new (.lru capacity), [], fun _ => none⟩

section

variable [DefaultHasher]

/-- What a call returns, and the backend after it. -/
def answer (s : Recorded) (call : Completion) : Except BackendError String × CachedBackend :=
  s.backend.complete (fun _ => .ok call.response) call.prompt

/-- Make a call and record it. -/
def step (s : Recorded) (call : Completion) : Recorded where
  backend := (s.answer call).2
  recent := touch call.prompt s.recent
  computed :=
    if key call.prompt ∈ s.backend.cache then s.computed
    else Function.update s.computed call.prompt (some call.response)

/-- After a call as many prompts are cached as there is room for, the most recently used ones, and
the response is the one that was last computed. -/
structure LeastRecent (capacity : Nat) (s : Recorded) (call : Completion) : Prop where
  cached : ∀ k, k ∈ (s.step call).backend.cache ↔ k ∈ ((s.step call).recent.take capacity).map key
  size : (s.step call).backend.cache.size = min capacity (s.step call).recent.length
  response : ∃ response, (s.answer call).1 = .ok response ∧
    (s.step call).computed call.prompt = some response

/-- A call that misses in a full cache finds the least recently used key first in the order. -/
def OldestFirst (capacity : Nat) (s : Recorded) (call : Completion) : Prop :=
  key call.prompt ∉ s.backend.cache → capacity ≤ s.backend.cache.size →
    s.backend.lruOrder.head? = (s.recent.take capacity).getLast?.map key

/-- What the calls preserve: the cache holds the most recently used prompts of those that occur,
with the responses they were last given. -/
structure Tracks (capacity : Nat) (prompts : List Prompt) (s : Recorded) : Prop where
  inStep : InStep capacity s.backend
  nodup : s.recent.Nodup
  occurs : ∀ p ∈ s.recent, p ∈ prompts
  cached : ∀ k, k ∈ s.backend.cache ↔ k ∈ (s.recent.take capacity).map key
  size : s.backend.cache.size = min capacity s.recent.length
  computed : ∀ p ∈ s.recent.take capacity, s.backend.cache[key p]? = s.computed p

theorem Tracks.start (capacity : Nat) (prompts : List Prompt) :
    Tracks capacity prompts (start capacity) where
  inStep := .new capacity
  nodup := List.nodup_nil
  occurs p hp := by cases hp
  cached k := by simp [Recorded.start, CachedBackend.new]
  size := by simp [Recorded.start, CachedBackend.new]
  computed p hp := by simp [Recorded.start] at hp

variable {capacity : Nat} {prompts : List Prompt} {s : Recorded} {call : Completion}

/-- A hit returns what is cached. -/
theorem answer_of_hit {hit : String} (h : InStep capacity s.backend)
    (hhit : s.backend.cache[key call.prompt]? = some hit) :
    s.answer call = (.ok hit, s.backend) := by
  simp [answer, complete, h.policy, hhit]

/-- A miss inserts what the inner backend answers. -/
theorem answer_of_miss (h : InStep capacity s.backend) (hmiss : key call.prompt ∉ s.backend.cache) :
    s.answer call =
      (.ok call.response, s.backend.insertResponse (key call.prompt) call.response) := by
  have hnone : s.backend.cache[key call.prompt]? = none := Std.ExtTreeMap.getElem?_eq_none hmiss
  simp [answer, complete, h.policy, hnone]

/-- Distinct prompts that occur have distinct keys. -/
theorem Tracks.inj (h : Tracks capacity prompts s) (hinj : Set.InjOn key {p | p ∈ prompts})
    (hcall : call.prompt ∈ prompts) {p : Prompt} (hp : p ∈ s.recent)
    (hkey : key p = key call.prompt) : p = call.prompt :=
  hinj (h.occurs p hp) hcall hkey

/-- A prompt is among the most recently used ones exactly if its key is cached. -/
theorem Tracks.mem_take_iff (h : Tracks capacity prompts s)
    (hinj : Set.InjOn key {p | p ∈ prompts}) (hcall : call.prompt ∈ prompts) :
    call.prompt ∈ s.recent.take capacity ↔ key call.prompt ∈ s.backend.cache := by
  rw [h.cached]
  constructor
  · exact fun hmem => List.mem_map_of_mem hmem
  · intro hmem
    obtain ⟨p, hp, hkey⟩ := List.mem_map.mp hmem
    exact h.inj hinj hcall (List.mem_of_mem_take hp) hkey ▸ hp

/-- After a hit everything is as it should be. -/
theorem Tracks.step_of_hit (h : Tracks capacity prompts s) (hinj : Set.InjOn key {p | p ∈ prompts})
    (hcall : call.prompt ∈ prompts) (hhit : key call.prompt ∈ s.backend.cache) :
    LeastRecent capacity s call ∧ Tracks capacity prompts (s.step call) := by
  have hmem := (h.mem_take_iff hinj hcall).mpr hhit
  have hsome : ∃ hit, s.backend.cache[key call.prompt]? = some hit := by
    have hisSome := Std.ExtTreeMap.isSome_getElem?_iff_mem.mpr hhit
    exact Option.isSome_iff_exists.mp hisSome
  obtain ⟨hit, hsome⟩ := hsome
  have hanswer := answer_of_hit h.inStep hsome
  have hbackend : (s.step call).backend = s.backend := congrArg Prod.snd hanswer
  have hcomputed : (s.step call).computed = s.computed := if_pos hhit
  have hperm : ((s.step call).recent.take capacity).Perm (s.recent.take capacity) :=
    take_touch_perm hmem
  have hcached : ∀ k, k ∈ (s.step call).backend.cache ↔
      k ∈ ((s.step call).recent.take capacity).map key := by
    intro k
    rw [hbackend, h.cached, (hperm.map key).mem_iff]
  have hsize : (s.step call).backend.cache.size = min capacity (s.step call).recent.length := by
    rw [hbackend, h.size]
    exact congrArg (min capacity) (length_touch_of_mem (List.mem_of_mem_take hmem)).symm
  refine ⟨⟨hcached, hsize, hit, by rw [hanswer], ?_⟩, ?_, nodup_touch h.nodup, ?_, hcached,
    hsize, ?_⟩
  · rw [hcomputed, ← h.computed call.prompt hmem, hsome]
  · rw [hbackend]
    exact h.inStep
  · intro p hp
    rcases mem_touch.mp hp with rfl | hp
    · exact hcall
    · exact h.occurs p hp
  · intro p hp
    rw [hbackend, hcomputed]
    exact h.computed p (hperm.subset hp)

/-- What a miss computes is what it returns. -/
theorem response_of_miss (h : InStep capacity s.backend)
    (hmiss : key call.prompt ∉ s.backend.cache) :
    ∃ response, (s.answer call).1 = .ok response ∧
      (s.step call).computed call.prompt = some response := by
  refine ⟨call.response, by rw [answer_of_miss h hmiss], ?_⟩
  simp [step, hmiss]

/-- A miss keeps the cache in step, and leaves the new prompt in front of the recent ones but
one. -/
theorem Tracks.step_of_miss (h : Tracks capacity prompts s) (hinj : Set.InjOn key {p | p ∈ prompts})
    (hcall : call.prompt ∈ prompts) (hmiss : key call.prompt ∉ s.backend.cache) {room : Nat}
    (hroom : capacity = room + 1) :
    InStep capacity (s.step call).backend ∧
      (s.step call).recent.take capacity = call.prompt :: s.recent.take room := by
  have hbackend : (s.step call).backend =
      s.backend.insertResponse (key call.prompt) call.response :=
    congrArg Prod.snd (answer_of_miss h.inStep hmiss)
  have hnot : call.prompt ∉ s.recent.take capacity := fun hmem =>
    hmiss ((h.mem_take_iff hinj hcall).mp hmem)
  constructor
  · rw [hbackend]
    exact h.inStep.insertResponse (by omega) (Or.inl hmiss)
  · rw [hroom] at hnot ⊢
    refine take_touch_of_not_mem fun hmem => hnot ?_
    exact List.take_subset_take_left s.recent (Nat.le_succ room) hmem

/-- The rest of what a miss preserves, once the right keys are cached and no other response was
changed. -/
theorem Tracks.of_miss (h : Tracks capacity prompts s) (hinj : Set.InjOn key {p | p ∈ prompts})
    (hcall : call.prompt ∈ prompts) (hmiss : key call.prompt ∉ s.backend.cache) {room : Nat}
    (hroom : capacity = room + 1)
    (hcached : ∀ k, k ∈ (s.step call).backend.cache ↔
      k = key call.prompt ∨ k ∈ (s.recent.take room).map key)
    (hsize : (s.step call).backend.cache.size = min capacity (s.step call).recent.length)
    (hself : (s.step call).backend.cache[key call.prompt]? = some call.response)
    (hframe : ∀ k, k ∈ (s.recent.take room).map key →
      (s.step call).backend.cache[k]? = s.backend.cache[k]?) :
    LeastRecent capacity s call ∧ Tracks capacity prompts (s.step call) := by
  obtain ⟨hinStep, htake⟩ := h.step_of_miss hinj hcall hmiss hroom
  have hcached' : ∀ k, k ∈ (s.step call).backend.cache ↔
      k ∈ ((s.step call).recent.take capacity).map key := by
    intro k
    rw [hcached, htake, List.map_cons, List.mem_cons]
  refine ⟨⟨hcached', hsize, response_of_miss h.inStep hmiss⟩,
    ⟨hinStep, nodup_touch h.nodup, ?_, hcached', hsize, ?_⟩⟩
  · intro p hp
    rcases mem_touch.mp hp with rfl | hp
    · exact hcall
    · exact h.occurs p hp
  · intro p hp
    have hcomputed : (s.step call).computed =
        Function.update s.computed call.prompt (some call.response) := if_neg hmiss
    rw [htake, List.mem_cons] at hp
    rw [hcomputed]
    by_cases hpc : p = call.prompt
    · rw [hpc, hself, Function.update_self]
    · have hmem := hp.resolve_left hpc
      have hold : p ∈ s.recent.take capacity :=
        List.take_subset_take_left s.recent (by omega) hmem
      rw [hframe _ (List.mem_map_of_mem hmem), h.computed p hold, Function.update_of_ne hpc]

/-- A miss in a cache that is not full adds the prompt. -/
theorem Tracks.step_of_lt (h : Tracks capacity prompts s) (hinj : Set.InjOn key {p | p ∈ prompts})
    (hcall : call.prompt ∈ prompts) (hmiss : key call.prompt ∉ s.backend.cache)
    (hlt : s.backend.cache.size < capacity) :
    LeastRecent capacity s call ∧ Tracks capacity prompts (s.step call) := by
  have hlen : s.backend.cache.size = s.recent.length := by
    have hsize := h.size
    omega
  have hall : ∀ n, s.recent.length ≤ n → s.recent.take n = s.recent := fun n hn =>
    List.take_of_length_le hn
  have hbackend : (s.step call).backend = ⟨s.backend.policy,
      s.backend.cache.insert (key call.prompt) call.response,
      s.backend.lruOrder ++ [key call.prompt]⟩ := by
    rw [step, answer_of_miss h.inStep hmiss]
    exact insertResponse_of_lt h.inStep.policy hlt
  have hnew : call.prompt ∉ s.recent := fun hmem =>
    hmiss ((h.mem_take_iff hinj hcall).mp (by rwa [hall capacity (by omega)]))
  obtain ⟨room, rfl⟩ := Nat.exists_eq_succ_of_ne_zero (Nat.ne_zero_of_lt hlt)
  have hold : ∀ k, k ∈ s.backend.cache ↔ k ∈ (s.recent.take room).map key := by
    intro k
    rw [h.cached, hall _ (by omega), hall room (by omega)]
  refine h.of_miss hinj hcall hmiss rfl ?_ ?_ ?_ ?_
  · intro k
    rw [hbackend, BTreeMap.mem_insert, hold]
  · have hrecent : (s.step call).recent.length = s.recent.length + 1 := by
      rw [step, touch, List.length_cons, List.erase_of_not_mem hnew]
    rw [hbackend, size_insert_of_not_mem hmiss, hrecent]
    omega
  · rw [hbackend, BTreeMap.get_insert, if_pos rfl]
  · intro k hk
    have hkey : key call.prompt ≠ k := by
      rintro rfl
      exact hmiss ((hold _).mpr hk)
    rw [hbackend, BTreeMap.get_insert, if_neg hkey]

/-- A miss in a full cache is as it should be exactly if the least recently used key is evicted. -/
theorem Tracks.step_of_le (h : Tracks capacity prompts s) (hinj : Set.InjOn key {p | p ∈ prompts})
    (hcapacity : 1 ≤ capacity) (hcall : call.prompt ∈ prompts)
    (hmiss : key call.prompt ∉ s.backend.cache) (hle : capacity ≤ s.backend.cache.size) :
    (LeastRecent capacity s call ↔ OldestFirst capacity s call) ∧
      (OldestFirst capacity s call → Tracks capacity prompts (s.step call)) := by
  obtain ⟨evict, order, horder⟩ := h.inStep.exists_first hcapacity hle
  have hbackend : (s.step call).backend = ⟨s.backend.policy,
      (s.backend.cache.erase evict).insert (key call.prompt) call.response,
      order ++ [key call.prompt]⟩ := by
    rw [step, answer_of_miss h.inStep hmiss]
    exact insertResponse_of_le h.inStep.policy hle horder
  have hlen : capacity ≤ s.recent.length := by
    have hsize := h.size
    omega
  obtain ⟨room, rfl⟩ := Nat.exists_eq_succ_of_ne_zero (Nat.one_le_iff_ne_zero.mp hcapacity)
  -- the prompts that are cached are the recent ones and the least recently used one
  obtain ⟨last, hlast⟩ : ∃ last, s.recent.take (room + 1) = s.recent.take room ++ [last] :=
    ⟨s.recent[room], by rw [List.take_succ_eq_append_getElem hlen]⟩
  have hkeys : (s.recent.take room).map key ++ [key last] = (s.recent.take (room + 1)).map key := by
    rw [hlast, List.map_append, List.map_singleton]
  have hfresh : key last ∉ (s.recent.take room).map key := by
    intro hmem
    obtain ⟨p, hp, hkey⟩ := List.mem_map.mp hmem
    have hnodup := (List.take_sublist (room + 1) s.recent).nodup h.nodup
    rw [hlast, List.nodup_append'] at hnodup
    have hlast' : last ∈ s.recent :=
      List.mem_of_mem_take (hlast ▸ List.mem_append_right _ List.mem_cons_self)
    have hsame : p = last :=
      hinj (h.occurs p (List.mem_of_mem_take hp)) (h.occurs last hlast') hkey
    exact hnodup.2.2 hp (by rw [hsame]; exact List.mem_singleton_self last)
  have hold : ∀ k, k ∈ s.backend.cache ↔ k ∈ (s.recent.take room).map key ∨ k = key last := by
    intro k
    rw [h.cached, ← hkeys, List.mem_append, List.mem_singleton]
  have holdest : OldestFirst (room + 1) s call ↔ evict = key last := by
    rw [OldestFirst, horder, hlast, List.getLast?_concat]
    simp [hmiss, hle]
  have hcache : ∀ k, k ∈ (s.step call).backend.cache ↔
      k = key call.prompt ∨ k ≠ evict ∧ k ∈ s.backend.cache := by
    intro k
    rw [hbackend, BTreeMap.mem_insert, Std.ExtTreeMap.mem_erase, ne_eq,
      Std.LawfulEqOrd.compare_eq_iff_eq, eq_comm (a := evict)]
  have hstep : evict = key last →
      LeastRecent (room + 1) s call ∧ Tracks (room + 1) prompts (s.step call) := by
    rintro rfl
    have hne : ∀ k ∈ (s.recent.take room).map key, k ≠ key last := fun k hk he => hfresh (he ▸ hk)
    refine h.of_miss hinj hcall hmiss rfl ?_ ?_ ?_ ?_
    · intro k
      rw [hcache, hold]
      constructor
      · rintro (hk | ⟨hk, hmem | hmem⟩)
        · exact Or.inl hk
        · exact Or.inr hmem
        · exact absurd hmem hk
      · rintro (hk | hk)
        · exact Or.inl hk
        · exact Or.inr ⟨hne k hk, Or.inl hk⟩
    · have hinStep := (h.step_of_miss hinj hcall hmiss rfl).1
      have hbefore := h.inStep.size
      have hafter := hinStep.size
      have hrecent : s.recent.length ≤ (s.step call).recent.length := by
        rw [step, touch, List.length_cons, List.length_erase]
        split <;> omega
      have hbound := hinStep.bound
      rw [hbackend, List.length_append, List.length_singleton] at hafter
      rw [horder, List.length_cons] at hbefore
      rw [hbackend] at hbound
      rw [hbackend, hafter]
      omega
    · rw [hbackend, BTreeMap.get_insert, if_pos rfl]
    · intro k hk
      have hkey : key call.prompt ≠ k := by
        rintro rfl
        exact hmiss ((hold _).mpr (Or.inl hk))
      have hevict : compare (key last) k ≠ .eq := by
        rw [ne_eq, Std.LawfulEqOrd.compare_eq_iff_eq]
        exact (hne k hk).symm
      rw [hbackend, BTreeMap.get_insert, if_neg hkey, Std.ExtTreeMap.getElem?_erase, if_neg hevict]
  refine ⟨⟨fun hlru => holdest.mpr ?_, fun ho => (hstep (holdest.mp ho)).1⟩,
    fun ho => (hstep (holdest.mp ho)).2⟩
  -- were another key evicted, the least recently used one would still be cached
  by_contra hne
  obtain ⟨-, htake⟩ := h.step_of_miss hinj hcall hmiss rfl
  have hstill : key last ∈ (s.step call).backend.cache :=
    (hcache _).mpr (Or.inr ⟨fun he => hne he.symm, (hold _).mpr (Or.inr rfl)⟩)
  rw [hlru.cached, htake, List.map_cons, List.mem_cons] at hstill
  rcases hstill with hstill | hstill
  · exact hmiss (hstill ▸ (hold _).mpr (Or.inr rfl))
  · exact hfresh hstill

/-- A call is as it should be exactly if the least recently used key is evicted, if one is. -/
theorem Tracks.step_iff (h : Tracks capacity prompts s) (hinj : Set.InjOn key {p | p ∈ prompts})
    (hcapacity : 1 ≤ capacity) (hcall : call.prompt ∈ prompts) :
    (LeastRecent capacity s call ↔ OldestFirst capacity s call) ∧
      (OldestFirst capacity s call → Tracks capacity prompts (s.step call)) := by
  by_cases hmiss : key call.prompt ∈ s.backend.cache
  · have hstep := h.step_of_hit hinj hcall hmiss
    exact ⟨iff_of_true hstep.1 fun hnot => absurd hmiss hnot, fun _ => hstep.2⟩
  · rcases Nat.lt_or_ge s.backend.cache.size capacity with hlt | hle
    · have hstep := h.step_of_lt hinj hcall hmiss hlt
      exact ⟨iff_of_true hstep.1 fun _ hle => absurd hlt (Nat.not_lt.mpr hle), fun _ => hstep.2⟩
    · exact h.step_of_le hinj hcapacity hcall hmiss hle

/-- Every call finds a least recently used cache after it exactly if, whenever one misses in a full
cache, the key that was inserted first is the one that was not used for longest. -/
theorem leastRecent_iff {capacity : Nat} (hcapacity : 1 ≤ capacity) (calls : List Completion)
    (hinj : Set.InjOn key {p | p ∈ calls.map (·.prompt)}) :
    EachCall step (LeastRecent capacity) (start capacity) calls ↔
      EachCall step (OldestFirst capacity) (start capacity) calls := by
  have hcase : ∀ s, ∀ call ∈ calls, Tracks capacity (calls.map (·.prompt)) s →
      (LeastRecent capacity s call ↔ OldestFirst capacity s call) ∧
        (OldestFirst capacity s call → Tracks capacity (calls.map (·.prompt)) (s.step call)) :=
    fun _ _ hmem h => h.step_iff hinj hcapacity (List.mem_map_of_mem hmem)
  exact eachCall_congr (Tracks.start capacity _) (fun s call hmem h => (hcase s call hmem h).1)
    fun s call hmem h => (hcase s call hmem h).2

end

end Recorded

/-- How prompts are used: the most recently used one first, and those that there is room for in the
order in which they came in. -/
structure Usage where
  recent : List Prompt
  entered : List Prompt

namespace Usage

/-- Use a prompt. One that is not kept comes in, and the least recently used one makes room. -/
def step (capacity : Nat) (u : Usage) (p : Prompt) : Usage where
  recent := touch p u.recent
  entered :=
    if p ∈ u.recent.take capacity then u.entered
    else if capacity ≤ u.recent.length then
      (u.recent.take capacity).getLast?.elim u.entered u.entered.erase ++ [p]
    else u.entered ++ [p]

/-- When a prompt makes room, it is the one that came in first. -/
def OldestFirst (capacity : Nat) (u : Usage) (p : Prompt) : Prop :=
  p ∉ u.recent.take capacity → capacity ≤ u.recent.length →
    u.entered.head? = (u.recent.take capacity).getLast?

end Usage

namespace Recorded

open CachedBackend

section

variable [DefaultHasher] {capacity : Nat} {prompts : List Prompt} {s : Recorded}
  {call : Completion} {u : Usage}

/-- The cache has its keys in the order in which the prompts came in. -/
structure Mirrors (prompts : List Prompt) (s : Recorded) (u : Usage) : Prop where
  recent : s.recent = u.recent
  order : s.backend.lruOrder = u.entered.map key
  occurs : ∀ p ∈ u.entered, p ∈ prompts

/-- The condition on a call can be told from the prompts used so far. -/
theorem Mirrors.oldestFirst_iff (h : Mirrors prompts s u) (ht : Tracks capacity prompts s)
    (hinj : Set.InjOn key {p | p ∈ prompts}) (hcall : call.prompt ∈ prompts) :
    OldestFirst capacity s call ↔ u.OldestFirst capacity call.prompt := by
  have hhead : s.backend.lruOrder.head? = (s.recent.take capacity).getLast?.map key ↔
      u.entered.head? = (u.recent.take capacity).getLast? := by
    rw [h.order, List.head?_map, h.recent]
    constructor
    · intro heq
      cases hfirst : u.entered.head? with
      | none =>
        rw [hfirst, Option.map_none] at heq
        exact (Option.map_eq_none_iff.mp heq.symm).symm
      | some p =>
        rw [hfirst, Option.map_some] at heq
        obtain ⟨q, hq, hkey⟩ := Option.map_eq_some_iff.mp heq.symm
        have hmem : q ∈ s.recent := by
          rw [h.recent]
          exact List.mem_of_mem_take (List.mem_of_getLast? hq)
        rw [hq, hinj (ht.occurs q hmem) (h.occurs p (List.mem_of_mem_head? hfirst)) hkey]
    · exact congrArg (Option.map key)
  have hsize : capacity ≤ s.backend.cache.size ↔ capacity ≤ u.recent.length := by
    rw [ht.size, h.recent]
    omega
  rw [OldestFirst, Usage.OldestFirst, hhead, hsize, ← h.recent, ht.mem_take_iff hinj hcall]

/-- A call that meets the condition keeps the order. -/
theorem Mirrors.step (h : Mirrors prompts s u) (ht : Tracks capacity prompts s)
    (hinj : Set.InjOn key {p | p ∈ prompts}) (hcapacity : 1 ≤ capacity)
    (hcall : call.prompt ∈ prompts) (holdest : u.OldestFirst capacity call.prompt) :
    Mirrors prompts (s.step call) (u.step capacity call.prompt) := by
  have hrecent : (s.step call).recent = (u.step capacity call.prompt).recent :=
    congrArg (touch call.prompt) h.recent
  have hmem := ht.mem_take_iff hinj hcall
  rw [h.recent] at hmem
  by_cases hkept : call.prompt ∈ u.recent.take capacity
  · obtain ⟨hit, hsome⟩ := Option.isSome_iff_exists.mp
      (Std.ExtTreeMap.isSome_getElem?_iff_mem.mpr (hmem.mp hkept))
    have hbackend : (s.step call).backend = s.backend :=
      congrArg Prod.snd (answer_of_hit ht.inStep hsome)
    refine ⟨hrecent, ?_, ?_⟩
    · rw [hbackend, h.order, Usage.step, if_pos hkept]
    · rw [Usage.step, if_pos hkept]
      exact h.occurs
  have hmiss : key call.prompt ∉ s.backend.cache := fun hhit => hkept (hmem.mpr hhit)
  have hsize := ht.size
  rw [h.recent] at hsize
  have hbackend : (s.step call).backend =
      s.backend.insertResponse (key call.prompt) call.response :=
    congrArg Prod.snd (answer_of_miss ht.inStep hmiss)
  by_cases hfull : capacity ≤ u.recent.length
  · have hle : capacity ≤ s.backend.cache.size := by omega
    obtain ⟨evict, order, horder⟩ := ht.inStep.exists_first hcapacity hle
    rw [h.order] at horder
    obtain ⟨p, entered, hentered, rfl, rfl⟩ := List.map_eq_cons_iff.mp horder
    have hstep : (u.step capacity call.prompt).entered = entered ++ [call.prompt] := by
      rw [Usage.step, if_neg hkept, if_pos hfull, ← holdest hkept hfull, hentered, List.head?_cons,
        Option.elim_some, List.erase_cons_head]
    refine ⟨hrecent, ?_, ?_⟩
    · rw [hbackend, insertResponse_of_le ht.inStep.policy hle (h.order.trans horder), hstep,
        List.map_append, List.map_singleton]
    · intro q hq
      rw [hstep, List.mem_append, List.mem_singleton] at hq
      rcases hq with hq | rfl
      · exact h.occurs q (hentered ▸ List.mem_cons_of_mem p hq)
      · exact hcall
  · have hlt : s.backend.cache.size < capacity := by omega
    have hstep : (u.step capacity call.prompt).entered = u.entered ++ [call.prompt] := by
      rw [Usage.step, if_neg hkept, if_neg hfull]
    refine ⟨hrecent, ?_, ?_⟩
    · rw [hbackend, insertResponse_of_lt ht.inStep.policy hlt, hstep, List.map_append,
        List.map_singleton, h.order]
    · intro q hq
      rw [hstep, List.mem_append, List.mem_singleton] at hq
      rcases hq with hq | rfl
      · exact h.occurs q hq
      · exact hcall

/-- The condition on a run is one on its prompts alone: whenever one makes room for another, it is
the one that came in first. -/
theorem oldestFirst_iff_usage (hcapacity : 1 ≤ capacity) (calls : List Completion)
    (hinj : Set.InjOn key {p | p ∈ calls.map (·.prompt)}) :
    EachCall step (OldestFirst capacity) (start capacity) calls ↔
      EachCall (Usage.step capacity) (Usage.OldestFirst capacity) ⟨[], []⟩
        (calls.map (·.prompt)) := by
  have hrun : ∀ (later : List Completion) (s : Recorded) (u : Usage),
      (∀ call ∈ later, call ∈ calls) → Tracks capacity (calls.map (·.prompt)) s →
      Mirrors (calls.map (·.prompt)) s u →
      (EachCall step (OldestFirst capacity) s later ↔
        EachCall (Usage.step capacity) (Usage.OldestFirst capacity) u
          (later.map (·.prompt))) := by
    intro later
    induction later with
    | nil => exact fun _ _ _ _ _ => iff_of_true eachCall_nil eachCall_nil
    | cons call later ih =>
      intro s u hmem ht hm
      have hcall : call.prompt ∈ calls.map (·.prompt) :=
        List.mem_map_of_mem (hmem call List.mem_cons_self)
      rw [List.map_cons, eachCall_cons, eachCall_cons, hm.oldestFirst_iff ht hinj hcall]
      refine and_congr_right fun holdest =>
        ih _ _ (fun c hc => hmem c (List.mem_cons_of_mem _ hc)) ?_
        (hm.step ht hinj hcapacity hcall holdest)
      exact (ht.step_iff hinj hcapacity hcall).2
        ((hm.oldestFirst_iff ht hinj hcall).mpr holdest)
  exact hrun calls _ _ (fun _ hcall => hcall) (.start capacity _) ⟨rfl, rfl, fun _ hp => nomatch hp⟩

end

private abbrev byInitial : DefaultHasher :=
  ⟨fun _ user _ => .ofNat ((user.toList.headD ' ').toNat)⟩

private def ask (body : String) : Completion := ⟨.ofUser body, "echo:" ++ body⟩

theorem leastRecent_abc : let _ := byInitial
    EachCall step (LeastRecent 2) (start 2) [ask "a", ask "b", ask "c"] := by
  intro _
  refine (leastRecent_iff (by decide) _ (by simp [Set.InjOn]; decide)).mpr ?_
  simp only [eachCall_cons, OldestFirst]
  refine ⟨by decide +kernel, by decide +kernel, by decide +kernel, eachCall_nil⟩

/-- The prompt that was used again is evicted, and not the one that was not. -/
theorem used_again_is_evicted : let _ := byInitial
    Set.InjOn key {p | p ∈ [ask "a", ask "b", ask "a", ask "c"].map (·.prompt)} ∧
      ¬EachCall step (LeastRecent 2) (start 2) [ask "a", ask "b", ask "a", ask "c"] := by
  intro _
  refine ⟨by simp [Set.InjOn]; decide, fun h => ?_⟩
  have hlast := (h [ask "a", ask "b", ask "a"] (ask "c") [] rfl).cached (key (.ofUser "a"))
  revert hlast
  decide +kernel

end Recorded

end AtomrOntology
