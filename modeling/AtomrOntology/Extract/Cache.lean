import AtomrOntology.Core.OrderedMap
import AtomrOntology.Logic.Recency
import AtomrOntology.Logic.Runs

/-!
# The caching backend

Responses are cached under a hash of their prompt. The keys stand in the order of their insertion in
a list beside the cache, and a full cache evicts the first one. A hit changes nothing, so this is
the least recently used one only if no older key was used again.
-/

namespace AtomrOntology

/-- Why a prompt is not completed. -/
inductive BackendError where
  | transport (text : String)
  | filtered (text : String)
  | parse (text : String)
  | other (text : String)
deriving DecidableEq, Repr

/-- A prompt. -/
structure Prompt where
  system : Option String
  user : String
  maxTokens : Option UInt32
deriving DecidableEq, Repr

/-- A prompt with just a user body. -/
def Prompt.ofUser (body : String) : Prompt := ⟨none, body, none⟩

/-- What is cached. -/
inductive CachePolicy where
  | none
  | contentAddressed
  | lru (capacity : Nat)
deriving DecidableEq, Repr

/-- `DefaultHasher`: the hash of three fields, one after another. -/
class DefaultHasher where
  finish : Option String → String → Option UInt32 → UInt64

/-- What the calls of a caching backend share. The cache is never iterated. -/
structure CachedBackend where
  policy : CachePolicy
  cache : BTreeMap UInt64 String
  lruOrder : List UInt64

namespace CachedBackend

/-- An empty cache. -/
def new (policy : CachePolicy) : CachedBackend := ⟨policy, ∅, []⟩

/-- The number of cached responses. -/
def cacheSize (b : CachedBackend) : Nat := b.cache.size

/-- Make room for a key and put it last. -/
def makeRoom (b : CachedBackend) (capacity : Nat) (key : UInt64) : CachedBackend :=
  if capacity ≤ b.cache.size then
    match b.lruOrder with
    | evict :: order => { b with cache := b.cache.erase evict, lruOrder := order ++ [key] }
    | [] => { b with lruOrder := [key] }
  else { b with lruOrder := b.lruOrder ++ [key] }

/-- What is done under the lock of the cache once a response is there. -/
def insertResponse (b : CachedBackend) (key : UInt64) (response : String) : CachedBackend :=
  let b := match b.policy with
    | .lru capacity => b.makeRoom capacity key
    | _ => b
  { b with cache := b.cache.insert key response }

variable [DefaultHasher]

/-- The key of a prompt. -/
def key (prompt : Prompt) : UInt64 :=
  DefaultHasher.finish prompt.system prompt.user prompt.maxTokens

/-- Complete a prompt, with what the inner backend makes of it unless it is cached. -/
def complete (inner : Prompt → Except BackendError String) (b : CachedBackend) (prompt : Prompt) :
    Except BackendError String × CachedBackend :=
  if b.policy = .none then (inner prompt, b)
  else
    match b.cache[key prompt]? with
    | some hit => (.ok hit, b)
    | none =>
      match inner prompt with
      | .error e => (.error e, b)
      | .ok response => (.ok response, b.insertResponse (key prompt) response)

omit [DefaultHasher]

theorem size_insert_of_not_mem {m : BTreeMap UInt64 String} {k : UInt64} {response : String}
    (h : k ∉ m) : (m.insert k response).size = m.size + 1 := by
  rw [Std.ExtTreeMap.size_insert, if_neg (by simpa using h)]

theorem size_erase_of_mem {m : BTreeMap UInt64 String} {k : UInt64} (h : k ∈ m) :
    (m.erase k).size = m.size - 1 := by
  rw [Std.ExtTreeMap.size_erase, if_pos (by simpa using h)]

/-- The order lists the cached keys once each, and there is room for them. -/
structure InStep (capacity : Nat) (b : CachedBackend) : Prop where
  policy : b.policy = .lru capacity
  nodup : b.lruOrder.Nodup
  mem : ∀ k, k ∈ b.lruOrder ↔ k ∈ b.cache
  size : b.cache.size = b.lruOrder.length
  bound : b.cache.size ≤ capacity

theorem InStep.new (capacity : Nat) : InStep capacity (new (.lru capacity)) where
  policy := rfl
  nodup := List.nodup_nil
  mem k := by simp [CachedBackend.new]
  size := by simp [CachedBackend.new]
  bound := by simp [CachedBackend.new]

variable {b : CachedBackend} {capacity : Nat} {k : UInt64} {response : String}

/-- Where there is room, the key becomes the last one. -/
theorem insertResponse_of_lt (hpolicy : b.policy = .lru capacity) (h : b.cache.size < capacity) :
    b.insertResponse k response =
      ⟨b.policy, b.cache.insert k response, b.lruOrder ++ [k]⟩ := by
  simp [insertResponse, hpolicy, makeRoom, Nat.not_le.mpr h]

/-- In a full cache it takes the place of the first one. -/
theorem insertResponse_of_le {evict : UInt64} {order : List UInt64}
    (hpolicy : b.policy = .lru capacity) (h : capacity ≤ b.cache.size)
    (horder : b.lruOrder = evict :: order) :
    b.insertResponse k response =
      ⟨b.policy, (b.cache.erase evict).insert k response, order ++ [k]⟩ := by
  simp [insertResponse, hpolicy, makeRoom, h, horder]

/-- A cache that holds something has a key to evict. -/
theorem InStep.exists_first (h : InStep capacity b) (hcapacity : 1 ≤ capacity)
    (hfull : capacity ≤ b.cache.size) : ∃ evict order, b.lruOrder = evict :: order := by
  have hlen := h.size
  cases horder : b.lruOrder with
  | nil =>
    rw [horder, List.length_nil] at hlen
    omega
  | cons evict order => exact ⟨evict, order, rfl⟩

/-- A key that was not cached, or is the one to be evicted, is inserted in step. -/
theorem InStep.insertResponse (h : InStep capacity b) (hcapacity : 1 ≤ capacity)
    (hk : k ∉ b.cache ∨ capacity ≤ b.cache.size ∧ b.lruOrder.head? = some k) :
    InStep capacity (b.insertResponse k response) := by
  by_cases hfull : capacity ≤ b.cache.size
  · obtain ⟨evict, order, horder⟩ := h.exists_first hcapacity hfull
    have hnodup := h.nodup
    have hsize := h.size
    rw [horder, List.nodup_cons] at hnodup
    rw [horder, List.length_cons] at hsize
    have hevict : evict ∈ b.cache := (h.mem evict).mp (horder ▸ List.mem_cons_self)
    have herase : (b.cache.erase evict).size = order.length := by
      rw [size_erase_of_mem hevict, hsize, Nat.add_sub_cancel]
    have hmem : ∀ a, a ∈ order ↔ a ∈ b.cache.erase evict := by
      intro a
      rw [Std.ExtTreeMap.mem_erase, ← h.mem a, horder, List.mem_cons, ne_eq,
        Std.LawfulEqOrd.compare_eq_iff_eq]
      constructor
      · exact fun ha => ⟨fun he => hnodup.1 (he ▸ ha), Or.inr ha⟩
      · exact fun ha => ha.2.resolve_left fun he => ha.1 he.symm
    have hfresh : k ∉ order := by
      rcases hk with hk | ⟨-, hk⟩
      · exact fun hmem' => hk ((h.mem k).mp (horder ▸ List.mem_cons_of_mem evict hmem'))
      · rw [horder, List.head?_cons, Option.some.injEq] at hk
        exact hk ▸ hnodup.1
    have hnew : k ∉ b.cache.erase evict := fun hmem' => hfresh ((hmem k).mpr hmem')
    rw [insertResponse_of_le h.policy hfull horder]
    refine ⟨h.policy, ?_, ?_, ?_, ?_⟩
    · exact List.nodup_append'.mpr ⟨hnodup.2, List.nodup_singleton k, by simpa using hfresh⟩
    · intro a
      rw [BTreeMap.mem_insert, List.mem_append, List.mem_singleton, hmem a, or_comm]
    · rw [size_insert_of_not_mem hnew, herase, List.length_append,
        List.length_singleton]
    · rw [size_insert_of_not_mem hnew, herase, ← hsize]
      exact h.bound
  · have hnew : k ∉ b.cache := hk.resolve_right fun hk => hfull hk.1
    rw [insertResponse_of_lt h.policy (Nat.not_le.mp hfull)]
    refine ⟨h.policy, ?_, ?_, ?_, ?_⟩
    · refine List.nodup_append'.mpr ⟨h.nodup, List.nodup_singleton k, ?_⟩
      simpa using fun hmem => hnew ((h.mem k).mp hmem)
    · intro a
      rw [BTreeMap.mem_insert, List.mem_append, List.mem_singleton, h.mem a, or_comm]
    · rw [size_insert_of_not_mem hnew, h.size, List.length_append,
        List.length_singleton]
    · rw [size_insert_of_not_mem hnew]
      omega

end CachedBackend

end AtomrOntology
