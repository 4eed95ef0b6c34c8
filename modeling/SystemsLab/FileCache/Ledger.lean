import SystemsLab.Data.Buckets
import SystemsLab.FileCache.Model

/-!
# The buffers of the pool, free and in use

`Ledger pool free used` says that the free list and the buffers in use are all of the pool, and that
`is_free` says which is which.  An acquired buffer is one more in use, whether an entry has it yet
or not. Each operation of the pool moves one buffer and leaves the others that are in use as they
were.
-/

namespace SystemsLab.FileCache

open CallSequence List Option

structure Ledger (pool : BufferPool) (free used : List Nat) : Prop where
  freeList : FreeList pool free
  all : (free ++ used).Perm (List.range POOL_SIZE)
  flags : ∀ b, (pool.buffers[b]?).map Buffer.isFree =
    if b < POOL_SIZE then some (decide (b ∈ free)) else none

/-- The buffers `bs` are the same in both pools. -/
def AgreeOn (bs : List Nat) (pool pool' : BufferPool) : Prop :=
  ∀ b ∈ bs, pool'.buffers[b]? = pool.buffers[b]?

/-- The bytes of `data` and a terminator are in the buffer. -/
def Holds (pool : BufferPool) (b : Nat) (data : List UInt8) : Prop :=
  ∃ n, pool.buffers[b]? = some n ∧ n.data.front data.length = data ∧ n.data.get data.length = some 0

variable {pool pool' : BufferPool} {free free' used used' : List Nat} {b : Nat}

theorem createBufferPool_ledger : Ledger (createBufferPool POOL_SIZE) (range POOL_SIZE) [] := by
  refine ⟨createBufferPool_freeList (by decide), by rw [append_nil], fun b => ?_⟩
  by_cases hb : b < POOL_SIZE
  · simp [createBufferPool, hb]
  · simp [createBufferPool, hb]

section

variable (h : Ledger pool free used)

include h

theorem Ledger.perm (hperm : used.Perm used') : Ledger pool free used' :=
  ⟨h.freeList, (hperm.append_left free).symm.trans h.all, h.flags⟩

theorem Ledger.nodup : (free ++ used).Nodup := h.all.nodup_iff.2 nodup_range

theorem Ledger.notMem_free (hb : b ∈ used) : b ∉ free := fun hfree =>
  (nodup_append'.1 h.nodup).2.2 hfree hb

theorem Ledger.lt (hb : b ∈ free ++ used) : b < POOL_SIZE :=
  mem_range.1 (h.all.mem_iff.1 hb)

theorem Ledger.exists_used (hb : b ∈ used) : ∃ n, pool.buffers[b]? = some n ∧ n.isFree = false := by
  have hflag := h.flags b
  rw [if_pos (h.lt (mem_append_right _ hb)), decide_eq_false (h.notMem_free hb)] at hflag
  exact map_eq_some_iff.1 hflag

theorem Ledger.mem_used {n : Buffer} (hn : pool.buffers[b]? = some n) (hused : n.isFree = false) :
    b ∈ used := by
  have hflag := h.flags b
  rw [hn, map_some, hused] at hflag
  split at hflag
  · rename_i hb
    have hfree : b ∉ free := of_decide_eq_false (Option.some.inj hflag).symm
    exact (mem_append.1 (h.all.mem_iff.2 (mem_range.2 hb))).resolve_left hfree
  · cases hflag

theorem Ledger.length_add : free.length + used.length = POOL_SIZE := by
  rw [← length_append, h.all.length_eq, length_range]

end

theorem Ledger.ne_of_cons (h : Ledger pool free (b :: used)) {c : Nat} (hc : c ∈ used) : c ≠ b := by
  rintro rfl
  exact (nodup_cons.1 (nodup_append'.1 h.nodup).2.1).1 hc

theorem Ledger.flags_of_ne (h : Ledger pool free used) (hb : b < POOL_SIZE)
    (hself : (pool'.buffers[b]?).map Buffer.isFree = some (decide (b ∈ free')))
    (hothers : ∀ c, c ≠ b → pool'.buffers[c]? = pool.buffers[c]?)
    (hfree : ∀ c, c ≠ b → (c ∈ free' ↔ c ∈ free)) (c : Nat) :
    (pool'.buffers[c]?).map Buffer.isFree = if c <
    POOL_SIZE then some (decide (c ∈ free')) else none := by
  by_cases hc : c = b
  · rw [hc, hself, if_pos hb]
  · rw [hothers c hc, h.flags c]
    simp only [hfree c hc]

theorem Ledger.acquire (h : Ledger pool free used) :
    (pool.freeCount = 0 ∧ acquireBuffer pool = some (pool, none)) ∨
      ∃ b free' pool', pool.freeCount ≠ 0 ∧ acquireBuffer pool = some (pool', some b) ∧
        Ledger pool' free' (b :: used) ∧ AgreeOn used pool pool' := by
  rcases acquireBuffer_spec h.freeList with ⟨rfl, hacquire⟩ | hacquire
  · exact .inl ⟨h.freeList.count, hacquire⟩
  · rcases hacquire with ⟨b, free', pool', n, rfl, hacquire, hfree, hn, hused, hothers⟩
    have hb : b ∉ free' := (nodup_cons.1 h.freeList.nodup).1
    have hledger : Ledger pool' free' (b :: used) := by
      refine ⟨hfree, perm_middle.trans h.all, ?_⟩
      apply h.flags_of_ne (h.lt (mem_append_left _ mem_cons_self)) _ hothers
      · intro c hc
        rw [mem_cons, or_iff_right hc]
      · rw [hn, map_some, hused, decide_eq_false hb]
    refine .inr ⟨b, free', pool', ?_, hacquire, hledger,
      fun c hc => hothers c (hledger.ne_of_cons hc)⟩
    rw [h.freeList.count]
    exact Nat.succ_ne_zero _

theorem Ledger.release (h : Ledger pool free (b :: used)) :
    ∃ pool', releaseBuffer pool b = some pool' ∧ Ledger pool' (b :: free) used ∧
      AgreeOn used pool pool' := by
  rcases h.exists_used mem_cons_self with ⟨n, hn, hused⟩
  rcases releaseBuffer_spec h.freeList hn hused (h.notMem_free mem_cons_self) with
    ⟨pool', hrelease, hfree, hself, hothers⟩
  refine ⟨pool', hrelease, ⟨hfree, perm_middle.symm.trans h.all, ?_⟩,
    fun c hc => hothers c (h.ne_of_cons hc)⟩
  apply h.flags_of_ne (h.lt (mem_append_right _ mem_cons_self)) _ hothers
  · intro c hc
    rw [mem_cons, or_iff_right hc]
  · rw [hself, decide_eq_true mem_cons_self]

theorem Ledger.releaseAll (h : Ledger pool free used) :
    ∃ pool', runCalls releaseBuffer pool used = some pool' := by
  induction used generalizing pool free with
  | nil => exact ⟨pool, rfl⟩
  | cons b used ih =>
    rcases h.release with ⟨pool1, hrelease, h1, -⟩
    rcases ih h1 with ⟨pool2, hrun⟩
    exact ⟨pool2, by rw [runCalls, hrelease, bind_some, hrun]⟩

theorem fillBuffer_pool {n : Buffer} (hn : pool.buffers[b]? = some n) {bytes : List UInt8}
    (hlen : bytes.length < BUFFER_SIZE) :
    ∃ pool' n', fillBuffer pool b bytes = some pool' ∧ pool'.buffers[b]? = some n' ∧
      n'.isFree = n.isFree ∧
      (n'.data.front bytes.length = bytes ∧ n'.data.get bytes.length = some 0) ∧
      (∀ c, c ≠ b → pool'.buffers[c]? = pool.buffers[c]?) ∧
      (FreeList pool free → b ∉ free → FreeList pool' free) := by
  rcases n.data.exists_store hlen.le with ⟨data, hstore, hdata⟩
  rcases data.exists_set hlen 0 with ⟨data', hset, hdata'⟩
  have hlt : b < pool.buffers.length := (List.getElem?_eq_some_iff.1 hn).1
  have hothers : ∀ c, c ≠ b → (pool.buffers.set b { n with data := data' })[c]? =
      pool.buffers[c]? := fun c hc => List.getElem?_set_ne (Ne.symm hc)
  refine ⟨{ pool with buffers := pool.buffers.set b { n with data := data' } },
    { n with data := data' }, ?_, List.getElem?_set_self hlt, rfl, ⟨?_, ?_⟩, hothers,
      fun hfree hb =>
      ⟨hfree.first, ?_, hfree.nodup, hfree.count⟩⟩
  · simp [fillBuffer, hn, hstore, hset]
  · -- The terminator lies behind the bytes.
    apply CArray.front_eq rfl hlen.le
    intro j hj
    rw [hdata' j, if_neg (by omega), hdata j hj]
  · exact (hdata' _).trans (if_pos rfl)
  · apply hfree.linked.congr
    intro c hc
    rw [nextBuffer, nextBuffer, hothers c fun heq => hb (heq ▸ hc)]

theorem Ledger.fill (h : Ledger pool free (b :: used)) {data : List UInt8}
    (hlen : data.length < BUFFER_SIZE) :
    ∃ pool', fillBuffer pool b data = some pool' ∧ Ledger pool' free (b :: used) ∧
      Holds pool' b data ∧
      AgreeOn used pool pool' := by
  rcases h.exists_used mem_cons_self with ⟨n, hn, hused⟩
  rcases fillBuffer_pool hn hlen with ⟨pool', n', hfill, hn', hfree', hdata, hothers, hsame⟩
  have hnot := h.notMem_free mem_cons_self
  refine ⟨pool', hfill, ⟨hsame h.freeList hnot, h.all, ?_⟩, ⟨n', hn', hdata⟩,
    fun c hc => hothers c (h.ne_of_cons hc)⟩
  apply h.flags_of_ne (h.lt (mem_append_right _ mem_cons_self)) _ hothers fun _ _ => Iff.rfl
  rw [hn', map_some, hfree', hused, decide_eq_false hnot]

end SystemsLab.FileCache
