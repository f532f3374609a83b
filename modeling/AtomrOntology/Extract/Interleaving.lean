import AtomrOntology.Extract.Cache

/-!
# Concurrent calls of the caching backend

A call looks its prompt up, has it completed by the inner backend, and inserts the response under
the lock of the cache. Between the steps of one call any steps of others may happen, so a key that
was looked up in vain may be there, and in the order, by the time it is inserted.
-/

namespace AtomrOntology

/-- How far a call has got: it waits for the inner backend, to cache the response under a key or
not; it has the response and waits for the lock; or it has returned. -/
inductive CallPhase where
  | asking (key : Option UInt64)
  | answered (key : UInt64) (response : String)
  | returned (result : Except BackendError String)

/-- One step of a call. -/
inductive CacheEvent where
  | lookup (call : Nat) (prompt : Prompt)
  | answer (call : Nat) (result : Except BackendError String)
  | insert (call : Nat)

/-- The shared backend and the calls that were started. -/
structure CacheSystem where
  backend : CachedBackend
  calls : Nat → Option CallPhase

namespace CacheSystem

open CachedBackend

/-- No call was started. -/
def start (policy : CachePolicy) : CacheSystem := ⟨.new policy, fun _ => none⟩

/-- A call gets on. -/
def advance (s : CacheSystem) (call : Nat) (phase : CallPhase) : CacheSystem :=
  { s with calls := Function.update s.calls call (some phase) }

section

variable [DefaultHasher]

/-- What is done under the lock before the inner backend is asked. -/
def lookupPhase (b : CachedBackend) (prompt : Prompt) : CallPhase :=
  if b.policy = .none then .asking none
  else
    match b.cache[key prompt]? with
    | some hit => .returned (.ok hit)
    | none => .asking (some (key prompt))

omit [DefaultHasher] in
/-- What is done with the answer of the inner backend. -/
def answerPhase (key : Option UInt64) : Except BackendError String → CallPhase
  | .error e => .returned (.error e)
  | .ok response =>
    match key with
    | some key => .answered key response
    | none => .returned (.ok response)

/-- A step. One that the call does not wait for changes nothing. -/
def step (s : CacheSystem) : CacheEvent → CacheSystem
  | .lookup call prompt =>
    match s.calls call with
    | none => s.advance call (lookupPhase s.backend prompt)
    | some _ => s
  | .answer call result =>
    match s.calls call with
    | some (.asking key) => s.advance call (answerPhase key result)
    | _ => s
  | .insert call =>
    match s.calls call with
    | some (.answered key response) =>
      { s with backend := s.backend.insertResponse key response }.advance call
        (.returned (.ok response))
    | _ => s

/-- The steps of a call, with no step of another one between them, are a call of `complete`. -/
theorem run_alone (s : CacheSystem) {call : Nat} (hcall : s.calls call = none)
    (inner : Prompt → Except BackendError String) (prompt : Prompt) :
    [.lookup call prompt, .answer call (inner prompt), .insert call].foldl step s =
      { s with backend := (s.backend.complete inner prompt).2 }.advance call
        (.returned (s.backend.complete inner prompt).1) := by
  simp only [List.foldl_cons, List.foldl_nil]
  by_cases hpolicy : s.backend.policy = .none
  · cases hinner : inner prompt <;>
      simp [step, hcall, advance, lookupPhase, answerPhase, complete, hpolicy, hinner]
  · cases hhit : s.backend.cache[key prompt]? with
    | some hit =>
      simp [step, hcall, advance, lookupPhase, complete, hpolicy, hhit]
    | none =>
      cases hinner : inner prompt <;>
        simp [step, hcall, advance, lookupPhase, answerPhase, complete, hpolicy, hhit, hinner]

/-- A key is inserted where there is room for one, and it is not cached or is the one evicted. -/
def Takes (capacity : Nat) (s : CacheSystem) (e : CacheEvent) : Prop :=
  ∀ call key response, e = .insert call → s.calls call = some (.answered key response) →
    1 ≤ capacity ∧
      (key ∉ s.backend.cache ∨
        capacity ≤ s.backend.cache.size ∧ s.backend.lruOrder.head? = some key)

/-- No more entries than the capacity, and each key once in the order. -/
def Bounded (capacity : Nat) (b : CachedBackend) : Prop :=
  b.cacheSize ≤ capacity ∧ ∀ k ∈ b.cache, b.lruOrder.count k = 1

/-- All that a step can do to the shared backend: nothing, or insert the response of a call. -/
theorem step_cases (s : CacheSystem) (e : CacheEvent) :
    (s.step e).backend = s.backend ∧
        (∀ call key response, e = .insert call → s.calls call ≠ some (.answered key response)) ∨
      ∃ call key response, e = .insert call ∧ s.calls call = some (.answered key response) ∧
        (s.step e).backend = s.backend.insertResponse key response := by
  cases e with
  | lookup call prompt =>
    left
    refine ⟨?_, fun _ _ _ h => nomatch h⟩
    simp only [step]
    split <;> rfl
  | answer call result =>
    left
    refine ⟨?_, fun _ _ _ h => nomatch h⟩
    simp only [step]
    split <;> rfl
  | insert call =>
    by_cases hcall : ∃ key response, s.calls call = some (.answered key response)
    · right
      obtain ⟨key, response, hcall⟩ := hcall
      refine ⟨call, key, response, rfl, hcall, ?_⟩
      simp only [step, hcall]
      rfl
    · left
      push Not at hcall
      refine ⟨?_, ?_⟩
      · simp only [step]
      · intro call' key response he
        obtain rfl := CacheEvent.insert.inj he
        exact hcall key response

omit [DefaultHasher] in
theorem bounded_of_inStep {capacity : Nat} {b : CachedBackend} (h : InStep capacity b) :
    Bounded capacity b :=
  ⟨h.bound, fun k hk => List.count_eq_one_of_mem h.nodup ((h.mem k).mpr hk)⟩

omit [DefaultHasher] in
/-- An insertion where there is no room, or of a key that stays in the order, breaks the bound or
the order. -/
theorem not_bounded_insertResponse {capacity : Nat} {b : CachedBackend} {k : UInt64}
    {response : String} (h : InStep capacity b)
    (hk : 1 ≤ capacity → k ∈ b.cache ∧ (capacity ≤ b.cache.size → b.lruOrder.head? ≠ some k)) :
    ¬Bounded capacity (b.insertResponse k response) := by
  rintro ⟨hsize, hcount⟩
  have hself : k ∈ (b.insertResponse k response).cache := by
    rw [insertResponse, BTreeMap.mem_insert]
    exact Or.inl rfl
  rcases Nat.eq_zero_or_pos capacity with rfl | hcapacity
  · -- a cache that should be empty holds the key
    have hempty := Std.ExtTreeMap.eq_empty_iff_size_eq_zero.mpr (Nat.le_zero.mp hsize)
    rw [hempty] at hself
    exact absurd hself (by simp)
  obtain ⟨hold, hhead⟩ := hk hcapacity
  have horder := (h.mem k).mpr hold
  -- the key is in the order before it is put at the end
  obtain ⟨order, hkeep, hnext⟩ : ∃ order, k ∈ order ∧
      (b.insertResponse k response).lruOrder = order ++ [k] := by
    by_cases hfull : capacity ≤ b.cache.size
    · obtain ⟨evict, order, hfirst⟩ := h.exists_first hcapacity hfull
      refine ⟨order, ?_, by rw [insertResponse_of_le h.policy hfull hfirst]⟩
      have hne := hhead hfull
      rw [hfirst, List.head?_cons, ne_eq, Option.some.injEq] at hne
      rw [hfirst, List.mem_cons] at horder
      exact horder.resolve_left fun he => hne he.symm
    · exact ⟨b.lruOrder, horder, by rw [insertResponse_of_lt h.policy (Nat.not_le.mp hfull)]⟩
  have htwice := hcount k hself
  rw [hnext, List.count_append, List.count_singleton_self] at htwice
  have hpos := List.count_pos_iff.mpr hkeep
  omega

/-- In step, the next state is bounded exactly if the step takes no key twice and no entry too
many. -/
theorem bounded_step_iff {capacity : Nat} {s : CacheSystem} {e : CacheEvent}
    (h : InStep capacity s.backend) :
    (Bounded capacity (s.step e).backend ↔ Takes capacity s e) ∧
      (Takes capacity s e → InStep capacity (s.step e).backend) := by
  rcases step_cases s e with ⟨hsame, hnone⟩ | ⟨call, k, response, rfl, hcall, hnext⟩
  · rw [hsame]
    refine ⟨iff_of_true (bounded_of_inStep h) fun call key response he hcall => ?_, fun _ => h⟩
    exact absurd hcall (hnone call key response he)
  · rw [hnext]
    have htakes : Takes capacity s (.insert call) ↔ 1 ≤ capacity ∧
        (k ∉ s.backend.cache ∨
          capacity ≤ s.backend.cache.size ∧ s.backend.lruOrder.head? = some k) := by
      constructor
      · exact fun ht => ht call k response rfl hcall
      · intro ht call' k' response' he hcall'
        obtain rfl := CacheEvent.insert.inj he
        rw [hcall] at hcall'
        obtain ⟨rfl, -⟩ := CallPhase.answered.inj (Option.some.inj hcall')
        exact ht
    rw [htakes]
    refine ⟨⟨fun hbounded => ?_, fun ht => bounded_of_inStep (h.insertResponse ht.1 ht.2)⟩,
      fun ht => h.insertResponse ht.1 ht.2⟩
    by_contra hnot
    refine not_bounded_insertResponse h (fun hcapacity => ?_) hbounded
    rw [not_and, not_or, not_not, not_and] at hnot
    exact hnot hcapacity

/-- The cache is bounded in every state of a run of interleaved calls exactly if every insertion in
it finds a cache that can hold something, and a key that is not cached or is the one evicted. -/
theorem bounded_iff (capacity : Nat) (events : List CacheEvent) :
    EachState step (fun s => Bounded capacity s.backend) (start (.lru capacity)) events ↔
      EachCall step (Takes capacity) (start (.lru capacity)) events := by
  have hstart : InStep capacity (start (.lru capacity)).backend := .new capacity
  rw [eachState_iff, and_iff_right (bounded_of_inStep hstart)]
  exact eachCall_congr (I := fun s => InStep capacity s.backend) hstart
    (fun s e _ h => (bounded_step_iff h).1) fun s e _ h => (bounded_step_iff h).2

end

private abbrev sameHash : DefaultHasher := ⟨fun _ _ _ => 7⟩

private def ping : Prompt := .ofUser "ping"

/-- Two calls that look the same prompt up before either inserts it put its key into the order
twice, and a cache for nothing holds an entry. -/
theorem concurrent_misses_repeat : let _ := sameHash
    let both := [.lookup 0 ping, .lookup 1 ping, .answer 0 (.ok "pong"), .answer 1 (.ok "pong"),
      .insert 0, .insert 1].foldl step (start (.lru 2))
    let single := [.lookup 0 ping, .answer 0 (.ok "pong"), .insert 0].foldl step (start (.lru 0))
    both.backend.lruOrder = [7, 7] ∧ 7 ∈ both.backend.cache ∧ single.backend.cacheSize = 1 := by
  decide +kernel

end CacheSystem

end AtomrOntology
