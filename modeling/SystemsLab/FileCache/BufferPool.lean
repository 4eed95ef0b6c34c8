import SystemsLab.CLib.CArray
import SystemsLab.Data.CallSequence
import SystemsLab.Data.Chain
import Mathlib.Data.UInt

/-!
# The buffers of `buffer-pool.c`

A pointer to a buffer is its index in `buffers`; a pointer that leads outside makes a function fail.
`FreeList pool l` says that the free list of the pool is `l`.
-/

namespace SystemsLab.FileCache

open Chain List Option

def BUFFER_SIZE : Nat := 4096

structure Buffer where
  data : CArray UInt8 BUFFER_SIZE
  isFree : Bool
  next : Option Nat

structure BufferPool where
  buffers : List Buffer
  freeList : Option Nat
  freeCount : Nat

/-- `create_buffer_pool`; the data is not initialised there. -/
def createBufferPool (poolSize : Nat) : BufferPool where
  buffers := (List.range poolSize).map fun i =>
    ⟨CArray.fill 0, true, if i + 1 = poolSize then none else some (i + 1)⟩
  freeList := some 0
  freeCount := poolSize

/-- `acquire_buffer`, which returns `NULL` from an exhausted pool. -/
def acquireBuffer (pool : BufferPool) : Option (BufferPool × Option Nat) :=
  if pool.freeCount = 0 then some (pool, none)
  else do
    let b ← pool.freeList
    let n ← pool.buffers[b]?
    some (⟨pool.buffers.set b { n with isFree := false, next := none }, n.next, pool.freeCount - 1⟩,
      some b)

def releaseBuffer (pool : BufferPool) (b : Nat) : Option BufferPool := do
  let n ← pool.buffers[b]?
  if n.isFree then some pool
  else some ⟨pool.buffers.set b ⟨CArray.fill 0, true, pool.freeList⟩, some b, pool.freeCount + 1⟩

def nextBuffer (pool : BufferPool) (b : Nat) : Option (Option Nat) :=
  (pool.buffers[b]?).map Buffer.next

structure FreeList (pool : BufferPool) (l : List Nat) : Prop where
  first : pool.freeList = l.head?
  linked : Linked (nextBuffer pool) l none
  nodup : l.Nodup
  count : pool.freeCount = l.length

variable {pool : BufferPool} {l : List Nat} {b : Nat}

theorem createBufferPool_freeList {poolSize : Nat} (hpos : 0 < poolSize) :
    FreeList (createBufferPool poolSize) (range poolSize) := by
  have hnext : ∀ i, i < poolSize → nextBuffer (createBufferPool poolSize) i =
      some (if i + 1 = poolSize then none else some (i + 1)) := by
    intro i hi
    simp [nextBuffer, createBufferPool, hi]
  have hsuffix : ∀ r i, i + r = poolSize →
      Linked (nextBuffer (createBufferPool poolSize)) (range' i r) none := by
    intro r
    induction r with
    | zero =>
      intro i _
      trivial
    | succ r ih =>
      intro i hi
      refine ⟨?_, ih (i + 1) (by omega)⟩
      rw [hnext i (by omega)]
      cases r with
      | zero =>
        rw [if_pos (by omega)]
        rfl
      | succ r =>
        rw [if_neg (by omega), range'_succ]
        rfl
  refine ⟨?_, ?_, nodup_range, by simp [createBufferPool]⟩
  · obtain ⟨k, rfl⟩ : ∃ k, poolSize = k + 1 := ⟨poolSize - 1, by omega⟩
    simp [createBufferPool, range_succ_eq_map]
  · rw [range_eq_range']
    exact hsuffix poolSize 0 (zero_add _)

theorem acquireBuffer_spec (h : FreeList pool l) :
    (l = [] ∧ acquireBuffer pool = some (pool, none)) ∨
      ∃ b l' pool' n, l = b :: l' ∧ acquireBuffer pool = some (pool', some b) ∧ FreeList pool' l' ∧
        pool'.buffers[b]? = some n ∧ n.isFree = false ∧ ∀ c, c ≠ b →
          pool'.buffers[c]? = pool.buffers[c]? := by
  cases l with
  | nil =>
    refine .inl ⟨rfl, ?_⟩
    have hcount := h.count
    rw [acquireBuffer, if_pos (by simpa using hcount)]
  | cons b l' =>
    have hfirst : pool.freeList = some b := h.first
    rcases h.linked with ⟨hlink, hrest⟩
    rcases map_eq_some_iff.1 hlink with ⟨n, hn, hnext⟩
    have hlt : b < pool.buffers.length := (List.getElem?_eq_some_iff.1 hn).1
    have hcount := h.count
    rw [List.length_cons] at hcount
    have hother : ∀ c, c ≠ b → (pool.buffers.set b { n with isFree := false, next := none })[c]? =
        pool.buffers[c]? := fun c hc => List.getElem?_set_ne (Ne.symm hc)
    rcases List.nodup_cons.1 h.nodup with ⟨hb, hnodup⟩
    refine .inr ⟨b, l', ⟨pool.buffers.set b { n with isFree := false, next := none }, n.next,
      pool.freeCount - 1⟩, { n with isFree := false, next := none }, rfl, ?_,
      ⟨?_, ?_, hnodup, by simp only; omega⟩, List.getElem?_set_self hlt, rfl, hother⟩
    · simp only [acquireBuffer, hfirst, hn, bind_eq_bind, bind_some]
      rw [if_neg (by omega)]
    · rwa [or_none] at hnext
    · apply hrest.congr
      intro c hc
      rw [nextBuffer, nextBuffer, hother c fun heq => hb (heq ▸ hc)]

theorem releaseBuffer_spec (h : FreeList pool l) {n : Buffer} (hn : pool.buffers[b]? = some n)
    (hused : n.isFree = false) (hb : b ∉ l) : ∃ pool', releaseBuffer pool b = some pool' ∧
    FreeList pool' (b :: l) ∧ (pool'.buffers[b]?).map Buffer.isFree = some true ∧
      ∀ c, c ≠ b → pool'.buffers[c]? = pool.buffers[c]? := by
  have hlt : b < pool.buffers.length := (List.getElem?_eq_some_iff.1 hn).1
  have hother : ∀ c, c ≠ b → (pool.buffers.set b ⟨CArray.fill 0, true, pool.freeList⟩)[c]? =
      pool.buffers[c]? := fun c hc => List.getElem?_set_ne (Ne.symm hc)
  have hself : (pool.buffers.set b ⟨CArray.fill 0, true, pool.freeList⟩)[b]? =
      some ⟨CArray.fill 0, true, pool.freeList⟩ := List.getElem?_set_self hlt
  refine ⟨⟨pool.buffers.set b ⟨CArray.fill 0, true, pool.freeList⟩, some b, pool.freeCount + 1⟩, ?_,
    ⟨rfl, ⟨?_, ?_⟩, List.nodup_cons.2 ⟨hb, h.nodup⟩, ?_⟩, by rw [hself]; rfl, hother⟩
  · simp [releaseBuffer, hn, hused]
  · rw [nextBuffer, hself, or_none, ← h.first]
    rfl
  · apply h.linked.congr
    intro c hc
    rw [nextBuffer, nextBuffer, hother c fun heq => hb (heq ▸ hc)]
  · rw [List.length_cons, h.count]

/-! ## Any calls -/

inductive PoolCall (n : Nat) where
  | acquire
  | release (b : Fin n)

/-- A pool, and the buffers that were acquired and not released since. -/
def poolCall {n : Nat} (s : BufferPool × Finset Nat) : PoolCall n → Option (BufferPool × Finset Nat)
  | .acquire => (acquireBuffer s.1).map fun r => (r.1, r.2.elim s.2 (insert · s.2))
  | .release b => (releaseBuffer s.1 b).map fun pool => (pool, s.2.erase b)

/-- The buffers of the free list are those with `is_free` and those that nobody has. -/
structure Tracks (n : Nat) (s : BufferPool × Finset Nat) (free : List Nat) : Prop where
  freeList : FreeList s.1 free
  flags : ∀ b, (s.1.buffers[b]?).map Buffer.isFree = if b <
    n then some (decide (b ∈ free)) else none
  held : ∀ b, b ∈ free ↔ b < n ∧ b ∉ s.2

variable {n : Nat} {s : BufferPool × Finset Nat} {free : List Nat}

theorem Tracks.call (h : Tracks n s free) (c : PoolCall n) :
    ∃ s', poolCall s c = some s' ∧ ∃ free', Tracks n s' free' := by
  cases c with
  | acquire =>
    rcases acquireBuffer_spec h.freeList
      with ⟨-, hnone⟩ | ⟨b, free', pool', m, rfl, hsome, hfree, hm, hused, hothers⟩
    · exact ⟨s, by rw [poolCall, hnone]; rfl, free, h⟩
    · have hb : b ∉ free' := (nodup_cons.1 h.freeList.nodup).1
      have hlt := ((h.held b).1 mem_cons_self).1
      refine ⟨(pool', insert b s.2), by rw [poolCall, hsome]; rfl, free', hfree,
        fun c => ?_, fun c => ?_⟩
      · by_cases hc : c = b
        · simp [hc, hm, hused, hb, hlt]
        · simpa [hothers c hc, hc] using h.flags c
      · by_cases hc : c = b
        · simp [hc, hb]
        · simpa [hc] using h.held c
  | release b =>
    have hflag := h.flags b
    rw [if_pos b.isLt] at hflag
    rcases map_eq_some_iff.1 hflag with ⟨m, hm, hused⟩
    by_cases hb : b.val ∈ free
    · -- a buffer that is free already stays where it is
      have hsame : s.2.erase b = s.2 := Finset.erase_eq_of_notMem ((h.held b).1 hb).2
      exact ⟨s, by simp [poolCall, releaseBuffer, hm, hused, hb, hsame], free, h⟩
    · rcases releaseBuffer_spec h.freeList hm (by rw [hused, decide_eq_false hb]) hb with
        ⟨pool', hrelease, hfree, hself, hothers⟩
      refine ⟨(pool', s.2.erase b), by rw [poolCall, hrelease]; rfl, b :: free, hfree,
        fun c => ?_, fun c => ?_⟩
      · by_cases hc : c = b
        · simp [hc, hself]
        · simpa [hothers c hc, hc] using h.flags c
      · by_cases hc : c = b
        · simp [hc]
        · simpa [hc] using h.held c

/-- After any calls the free list ends with `NULL` and has each buffer with `is_free` once, and
`free_count` is its length; `acquire_buffer` gives a buffer that nobody has, and `NULL` exactly if
every buffer is acquired. -/
theorem free_list_exact (hn : 1 ≤ n) (calls : List (PoolCall n)) :
    ∃ pool held free, CallSequence.runCalls poolCall (createBufferPool n, ∅) calls =
      some (pool, held) ∧
      FreeList pool free ∧ (∀ b, b ∈ free ↔ (pool.buffers[b]?).map Buffer.isFree = some true) ∧
      ∃ pool' got, acquireBuffer pool = some (pool', got) ∧ (∀ b ∈ got, b < n ∧ b ∉ held) ∧
        (got = none ↔ ∀ b < n, b ∈ held) := by
  have hstart : Tracks n (createBufferPool n, ∅) (range n) := by
    refine ⟨createBufferPool_freeList hn, fun b => ?_, fun b => by simp⟩
    by_cases hb : b < n
    · simp [createBufferPool, hb]
    · simp [createBufferPool, hb]
  rcases CallSequence.runCalls_invariant (P := fun s => ∃ free, Tracks n s free)
    (fun _ c ⟨_, hs⟩ => hs.call c)
    ⟨_, hstart⟩ calls with ⟨⟨pool, held⟩, hrun, free, h⟩
  refine ⟨pool, held, free, hrun, h.freeList, fun b => ?_, ?_⟩
  · rw [h.flags]
    have hheld := h.held b
    split_ifs with hb
    · simp
    · simpa [hb] using hheld
  · rcases acquireBuffer_spec h.freeList with ⟨rfl, hnone⟩ | ⟨b, free', pool', -, rfl, hsome, -⟩
    · refine ⟨pool, none, hnone, nofun, iff_of_true rfl fun b hb => ?_⟩
      simpa [hb] using h.held b
    · have hb := (h.held b).1 mem_cons_self
      refine ⟨pool', some b, hsome, ?_, iff_of_false nofun fun hall => hb.2 (hall b hb.1)⟩
      rintro c ⟨⟩
      exact hb

/-- Two buffers; the first one is released twice. -/
theorem free_list_exact_demo :
    ∃ pool held free, CallSequence.runCalls poolCall (createBufferPool 2, ∅)
    [.acquire, .acquire, .release (0 : Fin 2), .release 0] = some (pool, held) ∧
    FreeList pool free := by
  rcases free_list_exact (n := 2) (by decide) [.acquire, .acquire, .release 0, .release 0] with
    ⟨pool, held, free, hrun, hfree, -⟩
  exact ⟨pool, held, free, hrun, hfree⟩

end SystemsLab.FileCache
