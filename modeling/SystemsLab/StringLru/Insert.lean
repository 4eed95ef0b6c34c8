import SystemsLab.StringLru.Order

/-!
# A new node, and the node that makes room for it

`linkNew` keeps every key in reach, also where the new node shares its bucket: the new node comes to
the front of the chain.  `makeRoom` takes the oldest node out of a list that is whole.
-/

namespace SystemsLab.StringLru

open List Function Option

open FileCache (hash CACHE_SIZE)
open Recent (Before)

variable {cache cache' : Cache} {as : List Nat} {keys : List CString} {stored : CString →
  Option CString} {a b : Nat}
  {key : CString}

/-! ## Heaps that agree on the nodes -/

/-- The ends of the list, the table, and the keys and links of the nodes are the same. -/
structure SameNodes (cache cache' : Cache) (as : List Nat) : Prop where
  head : cache'.head = cache.head
  tail : cache'.tail = cache.tail
  table : cache'.table = cache.table
  count : cache'.count = cache.count
  capacity : cache'.capacity = cache.capacity
  key : ∀ a ∈ as, keyAt cache'.heap a = keyAt cache.heap a
  next : ∀ a ∈ as, nextAt cache'.heap a = nextAt cache.heap a
  prev : ∀ a ∈ as, prevAt cache'.heap a = prevAt cache.heap a

section SameNodes

variable (hsame : SameNodes cache cache' as)

include hsame

theorem Rep.congr {stored' : CString → Option CString} (h : Rep cache as keys stored)
    (hdata : ∀ a ∈ as, ∀ k, keyAt cache.heap a = some k → dataAt cache'.heap a = stored' k) :
    Rep cache' as keys stored' where
  head_eq := hsame.head.trans h.head_eq
  count_eq := hsame.count.trans h.count_eq
  capacity_eq := hsame.capacity.trans h.capacity_eq
  keys_eq := (map_congr_left hsame.key).trans h.keys_eq
  nodup := h.nodup
  data_eq a ha k hk := by
    rw [hsame.key a ha] at hk
    exact hdata a ha k hk
  next_behind a ha b hb := by
    rw [hsame.next a ha] at hb
    exact h.next_behind a ha b hb
  bucket i a ha := by
    rw [hsame.table] at ha
    rcases h.bucket i a ha with ⟨hmem, k, hk, hi⟩
    exact ⟨hmem, k, (hsame.key a hmem).trans hk, hi⟩
  first a ha k hk := by
    rw [hsame.key a (mem_of_mem_head? ha)] at hk
    rw [hsame.table]
    exact h.first a ha k hk

theorem Tidy.congr (h : Rep cache as keys stored) (ht : Tidy cache as) : Tidy cache' as where
  prev_next a ha b hb := by
    rw [hsame.next a ha] at hb
    rw [hsame.prev b (h.next_behind a ha b hb).mem_right]
    exact ht.prev_next a ha b hb
  prev_before a ha b hb := by
    rw [hsame.prev a ha] at hb
    exact ht.prev_before a ha b hb
  table_eq a ha k hk := by
    rw [hsame.key a ha] at hk
    rw [hsame.table]
    exact ht.table_eq a ha k hk

theorem Listed.congr (hlist : Listed cache as) : Listed cache' as where
  chain := hlist.chain.imp_of_mem_imp fun _ b _ hb hab => (hsame.prev b hb).trans hab
  tail_eq := hsame.tail.trans hlist.tail_eq

end SameNodes

/-! ## A new node -/

/-- From `cache` to `cache'` the node `a` was linked in front of the list and of its bucket. -/
structure Inserted (cache cache' : Cache) (a : Nat) (new : CString) : Prop where
  head : cache'.head = some a
  tail : cache'.tail = cache.tail.or (some a)
  table : cache'.table = update cache.table (hash new) (some a)
  count : cache'.count = cache.count + 1
  capacity : cache'.capacity = cache.capacity
  key : ∀ b, keyAt cache'.heap b = keyAt cache.heap b
  data : ∀ b, dataAt cache'.heap b = dataAt cache.heap b
  next : ∀ b, nextAt cache'.heap b = if b = a then cache.table (hash new) else nextAt cache.heap b
  prev : ∀ b, prevAt cache'.heap b =
    if b = a then none else if cache.head = some b then some a else prevAt cache.heap b

theorem linkNew_spec (ha : Alive cache.heap a)
    (hhead : ∀ c, cache.head = some c → Alive cache.heap c)
    (hne : cache.head ≠ some a) (key : CString) :
    ∃ cache', linkNew cache a key = some cache' ∧ Inserted cache cache' a key := by
  rcases addToFront_spec ha hhead hne with ⟨c1, hc1, h1, hhead1, htail1, hnext1, hprev1⟩
  have ha1 : ∀ c, some a = some c → Alive c1.heap c := by
    rintro c ⟨⟩
    exact h1.alive ha
  refine ⟨{ c1 with
      table := update c1.table (hash key) (some a)
      count := c1.count + 1
      heap := c1.heap.assign (some a) fun n => { n with next := c1.table (hash key) } },
    ?_, hhead1, htail1, ?_, ?_, h1.capacity, by simpa using h1.key, by simpa
      using h1.data, fun b => ?_,
    by simpa using hprev1⟩
  · simp [linkNew, hc1, setNode_eq (h1.alive ha)]
  · rw [h1.table]
  · rw [h1.count]
  · rw [nextAt_setNext ha1, hnext1, h1.table]
    by_cases hb : b = a
    · simp [hb]
    · simp [hb, Ne.symm hb]

variable {data : CString}

theorem Rep.alloc (h : Rep cache as keys stored) (hint : Nat) (node : Node) :
    cache.heap.freshAddr hint ∉ as ∧
      SameNodes cache { cache with heap := cache.heap.alloc hint node } as ∧
      Rep { cache with heap := cache.heap.alloc hint node } as keys stored := by
  have hfresh : cache.heap.freshAddr hint ∉ as := by
    intro hmem
    simpa [Alive, cache.heap.cell_freshAddr hint] using h.alive hmem
  have hcell : ∀ b ∈ as, (cache.heap.alloc hint node).cell b = cache.heap.cell b := by
    intro b hb
    apply Heap.alloc_of_ne
    rintro rfl
    exact hfresh hb
  have hsame : SameNodes cache { cache with heap := cache.heap.alloc hint node } as := by
    refine ⟨rfl, rfl, rfl, rfl, rfl, fun b hb => ?_, fun b hb => ?_, fun b hb => ?_⟩ <;>
      simp only [keyAt, nextAt, prevAt, hcell b hb]
  refine ⟨hfresh, hsame, h.congr hsame fun b hb k hk => ?_⟩
  rw [dataAt, hcell b hb]
  exact h.data_eq b hb k hk

section Inserted

variable (h : Rep cache as keys stored) (ha : a ∉ as) (hka : keyAt cache.heap a = some key)
  (hins : Inserted cache cache' a key)

include ha in
theorem ne_new : ∀ b ∈ as, b ≠ a := by
  rintro b hb rfl
  exact ha hb

include ha hins in
theorem next_old : ∀ b ∈ as, nextAt cache'.heap b = nextAt cache.heap b := by
  intro b hb
  rw [hins.next, if_neg (ne_new ha b hb)]

include h ha hka hins

theorem Rep.insert (hkey : key ∉ keys) (hda : dataAt cache.heap a = some data) :
    Rep cache' (a :: as) (key :: keys) (update stored key (some data)) := by
  refine ⟨hins.head, ?_, hins.capacity.trans h.capacity_eq, ?_, nodup_cons.2 ⟨hkey, h.nodup⟩,
    ?_, ?_, ?_, ?_⟩
  · rw [hins.count, h.count_eq, length_cons]
    rfl
  · rw [map_congr_left fun b _ => hins.key b, map_cons, map_cons, hka, h.keys_eq]
  · intro b hb k hk
    rw [hins.key] at hk
    rw [hins.data]
    rcases mem_cons.1 hb with rfl | hb
    · rw [hka] at hk
      cases hk
      rw [hda, update_self]
    · -- an old node has another key
      have hkne : k ≠ key := by
        rintro rfl
        exact hkey (h.key_mem hb hk)
      rw [update_of_ne hkne]
      exact h.data_eq b hb k hk
  · intro b hb c hc
    rcases mem_cons.1 hb with rfl | hb
    · -- the new node leads to the old head of its bucket
      rw [hins.next, if_pos rfl] at hc
      exact Recent.before_cons_self (h.bucket _ c hc).1
    · rw [next_old ha hins b hb] at hc
      exact (h.next_behind b hb c hc).cons
  · intro i c hc
    rw [hins.table] at hc
    rw [hins.key]
    by_cases hi : i = hash key
    · rw [hi, update_self] at hc
      cases hc
      exact ⟨mem_cons_self, key, hka, hi.symm⟩
    · rw [update_of_ne hi] at hc
      rcases h.bucket i c hc with ⟨hmem, hrest⟩
      exact ⟨mem_cons_of_mem _ hmem, hrest⟩
  · rintro c ⟨⟩ k hk
    rw [hins.key, hka] at hk
    cases hk
    rw [hins.table, update_self]

theorem Tidy.insert (ht : Tidy cache as) (hspread : ((key :: keys).map hash).Nodup) :
    Tidy cache' (a :: as) := by
  rw [map_cons, nodup_cons] at hspread
  have hfree : ∀ b ∈ as, ∀ k, keyAt cache.heap b = some k → hash k ≠ hash key :=
    fun b hb k hk heq =>
    hspread.1 (mem_map.2 ⟨k, h.key_mem hb hk, heq⟩)
  have hempty : cache.table (hash key) = none := by
    cases htable : cache.table (hash key) with
    | none => rfl
    | some b =>
      rcases h.bucket _ b htable with ⟨hb, k, hk, heq⟩
      exact absurd heq (hfree b hb k hk)
  refine ⟨fun b hb c hc => ?_, fun b hb c hc => ?_, fun b hb k hk => ?_⟩
  · rcases mem_cons.1 hb with rfl | hb
    · -- the bucket of the new key was empty
      rw [hins.next, if_pos rfl, hempty] at hc
      cases hc
    · rw [next_old ha hins b hb] at hc
      have hbefore := h.next_behind b hb c hc
      -- `next` does not lead to the old head
      have hhead : cache.head ≠ some c := by
        intro hhead
        rw [h.head_eq] at hhead
        exact hbefore.ne_head h.nodup_nodes hhead rfl
      rw [hins.prev, if_neg (ne_new ha c hbefore.mem_right), if_neg hhead]
      exact ht.prev_next b hb c hc
  · rcases mem_cons.1 hb with rfl | hb
    · rw [hins.prev, if_pos rfl] at hc
      cases hc
    · rw [hins.prev, if_neg (ne_new ha b hb)] at hc
      by_cases hhead : cache.head = some b
      · rw [if_pos hhead] at hc
        cases hc
        exact Recent.before_cons_self hb
      · rw [if_neg hhead] at hc
        exact (ht.prev_before b hb c hc).cons
  · rw [hins.key] at hk
    rw [hins.table]
    rcases mem_cons.1 hb with rfl | hb
    · rw [hka] at hk
      cases hk
      exact update_self ..
    · rw [update_of_ne (hfree b hb k hk)]
      exact ht.table_eq b hb k hk

end Inserted

theorem Listed.insert (h : Rep cache as keys stored) (hlist : Listed cache as) (ha : a ∉ as)
    (hins : Inserted cache cache' a key) : Listed cache' (a :: as) := by
  cases as with
  | nil =>
    refine ⟨isChain_singleton a, ?_⟩
    rw [hins.tail, hlist.tail_eq]
    rfl
  | cons first rest =>
    have hfirst : cache.head = some first := h.head_eq
    have hnodup := nodup_cons.1 h.nodup_nodes
    have hne : first ≠ a := fun heq => ha (heq ▸ mem_cons_self)
    have hsame : ∀ b ∈ rest, prevAt cache'.heap b = prevAt cache.heap b := by
      intro b hb
      have hba : b ≠ a := by
        rintro rfl
        exact ha (mem_cons_of_mem _ hb)
      have hbfirst : cache.head ≠ some b := by
        rw [hfirst]
        rintro ⟨⟩
        exact hnodup.1 hb
      rw [hins.prev, if_neg hba, if_neg hbfirst]
    have hchain := hlist.chain
    rw [isChain_cons] at hchain
    refine ⟨isChain_cons_cons.2 ⟨?_, isChain_cons.2 ⟨fun b hb => ?_, ?_⟩⟩, ?_⟩
    · rw [hins.prev, if_neg hne, if_pos hfirst]
    · rw [hsame b (mem_of_mem_head? hb)]
      exact hchain.1 b hb
    · exact hchain.2.imp_of_mem_imp fun _ b _ hb hcb => (hsame b hb).trans hcb
    · rw [hins.tail, hlist.tail_eq, getLast?_cons_cons,
        getLast?_eq_some_getLast (cons_ne_nil first rest)]
      rfl

theorem Rep.exists_insert (h : Rep cache as keys stored) (ha : a ∉ as) (hkey : key ∉ keys)
    (hka : keyAt cache.heap a = some key) (hda : dataAt cache.heap a = some data) :
    ∃ cache', linkNew cache a key = some cache' ∧ Rep cache' (a :: as) (key :: keys)
      (update stored key (some data)) ∧
      (Tidy cache as → ((key :: keys).map hash).Nodup → Tidy cache' (a :: as)) ∧
      (Listed cache as → Listed cache' (a :: as)) := by
  have hhead : ∀ c, cache.head = some c → c ∈ as := by
    intro c hc
    rw [h.head_eq] at hc
    exact mem_of_mem_head? hc
  rcases linkNew_spec (alive_iff.2 ⟨key, hka⟩) (fun c hc => h.alive (hhead c hc))
    (fun hc => ha (hhead a hc)) key with
    ⟨cache', hlink, hins⟩
  exact ⟨cache', hlink, h.insert ha hka hins hkey hda,
    fun ht hspread => Tidy.insert h ha hka hins ht hspread, fun hlist => hlist.insert h ha hins⟩

/-! ## Making room -/

/-- From `cache` to `cache'` the last node `lru` was taken out, behind the node `before`. -/
structure Evicted (cache cache' : Cache) (before lru : Nat) (old : CString) : Prop where
  head : cache'.head = cache.head
  tail : cache'.tail = some before
  table : cache'.table = update cache.table (hash old) none
  count : cache'.count = cache.count - 1
  capacity : cache'.capacity = cache.capacity
  key : ∀ b, b ≠ lru → keyAt cache'.heap b = keyAt cache.heap b
  data : ∀ b, b ≠ lru → dataAt cache'.heap b = dataAt cache.heap b
  next : ∀ b, b ≠ lru → nextAt cache'.heap b = if b = before then none else nextAt cache.heap b
  prev : ∀ b, b ≠ lru → prevAt cache'.heap b = prevAt cache.heap b

theorem makeRoom_spec {before lru : Nat} {old : CString} (hfull : cache.capacity ≤ cache.count)
    (htail : cache.tail = some lru) (hlru : Alive cache.heap lru)
    (hprev : prevAt cache.heap lru = some before) (hbefore : Alive cache.heap before)
    (hnext : nextAt cache.heap lru = none) (hold : keyAt cache.heap lru = some old)
    (htable : cache.table (hash old) = some lru) :
    ∃ cache', makeRoom cache = some cache' ∧ Evicted cache cache' before lru old := by
  rcases removeLru_spec htail hlru hprev hbefore with ⟨c1, hc1, h1, hhead1, htail1, hnext1, hprev1⟩
  rcases (h1.alive hlru).exists_cell with ⟨node, hnode, hnodeNext, -, hnodeKey⟩
  rw [hnext1, hnext] at hnodeNext
  rw [h1.key, hold, some.injEq] at hnodeKey
  have hcell : ∀ b, b ≠ lru → (c1.heap.free lru).cell b = c1.heap.cell b := fun b hb =>
    Heap.free_of_ne hb
  refine ⟨{ c1 with table := update c1.table (hash old) none, heap := c1.heap.free lru,
                    count := c1.count - 1 }, ?_, hhead1, htail1, ?_, ?_, h1.capacity,
                      ?_, ?_, ?_, ?_⟩
  · rw [makeRoom, if_pos hfull, hc1, bind_eq_bind, bind_some]
    simp [hnode, ← hnodeKey, ← hnodeNext, h1.table, htable]
  · rw [h1.table]
  · rw [h1.count]
  · exact fun b hb => (congrArg _ (hcell b hb)).trans (h1.key b)
  · exact fun b hb => (congrArg _ (hcell b hb)).trans (h1.data b)
  · exact fun b hb => (congrArg (·.bind Node.next) (hcell b hb)).trans (hnext1 b)
  · exact fun b hb => (congrArg (·.bind Node.prev) (hcell b hb)).trans (hprev1 b)

variable {l : List Nat} {before lru : Nat} {old : CString}

section

variable (h : Rep cache (l ++ [lru]) keys stored) (ht : Tidy cache (l ++ [lru]))
  (hprev : prevAt cache.heap lru = some before) (hold : keyAt cache.heap lru = some old)
  (hev : Evicted cache cache' before lru old)

include h in
theorem Rep.before_last {c : Nat} (hbefore : Before (l ++ [lru]) b c) (hb : b ≠ lru)
    (hc : c ≠ lru) : Before l b c := by
  have herase := hbefore.erase hb hc
  rwa [erase_append_right _ fun hmem => h.ne_last hmem rfl, erase_cons_head, append_nil] at herase

include h ht hprev hold hev

/-- The nodes that stay are tidy, and every `next` leads to one of them. -/
theorem Tidy.evict : (∀ b ∈ l, ∀ c, nextAt cache'.heap b = some c → Before l b c) ∧
    Tidy cache' l := by
  have hne : ∀ b ∈ l, b ≠ lru := fun b hb => h.ne_last hb
  have hin : ∀ {b}, b ∈ l → b ∈ l ++ [lru] := fun hb => mem_append_left _ hb
  -- only the node before the last one could lead to it
  have hnext : ∀ b ∈ l, ∀ c, nextAt cache'.heap b = some c →
    nextAt cache.heap b = some c ∧ Before l b c := by
    intro b hb c hc
    rw [hev.next b (hne b hb)] at hc
    by_cases hbefore : b = before
    · rw [if_pos hbefore] at hc
      cases hc
    · rw [if_neg hbefore] at hc
      refine ⟨hc, h.before_last (h.next_behind b (hin hb) c hc) (hne b hb) ?_⟩
      rintro rfl
      have hback := ht.prev_next b (hin hb) c hc
      rw [hprev] at hback
      exact hbefore (some.inj hback).symm
  refine ⟨fun b hb c hc => (hnext b hb c hc).2, fun b hb c hc => ?_, fun b hb c hc => ?_,
    fun b hb k hk => ?_⟩
  · rcases hnext b hb c hc with ⟨hc, hbefore⟩
    rw [hev.prev c (hne c hbefore.mem_right)]
    exact ht.prev_next b (hin hb) c hc
  · rw [hev.prev b (hne b hb)] at hc
    have hbefore := ht.prev_before b (hin hb) c hc
    refine h.before_last hbefore ?_ (hne b hb)
    rintro rfl
    cases hbefore.mem_behind h.nodup_nodes
  · rw [hev.key b (hne b hb)] at hk
    have htable := ht.table_eq b (hin hb) k hk
    have hbucket : hash k ≠ hash old := by
      intro heq
      rw [heq, ht.table_eq lru (by simp) old hold] at htable
      exact hne b hb (some.inj htable).symm
    rwa [hev.table, update_of_ne hbucket]

theorem Rep.evict (hbefore : before ∈ l) : Rep cache' l keys.dropLast stored := by
  rcases ht.evict h hprev hold hev with ⟨hnext, htidy⟩
  have hne : ∀ b ∈ l, b ≠ lru := fun b hb => h.ne_last hb
  refine ⟨?_, ?_, hev.capacity.trans h.capacity_eq, ?_, h.nodup.sublist (dropLast_sublist _),
    ?_, hnext, ?_,
    fun b hb => htidy.table_eq b (mem_of_mem_head? hb)⟩
  · rw [hev.head, h.head_eq]
    cases l with
    | nil => cases hbefore
    | cons b l => rfl
  · rw [hev.count, h.count_eq, length_append, length_singleton]
    omega
  · have hkeys := congrArg List.dropLast h.keys_eq
    rw [map_append, map_singleton, dropLast_concat, ← map_dropLast] at hkeys
    rw [← hkeys]
    exact map_congr_left fun b hb => hev.key b (hne b hb)
  · intro b hb k hk
    rw [hev.key b (hne b hb)] at hk
    rw [hev.data b (hne b hb)]
    exact h.data_eq b (mem_append_left _ hb) k hk
  · intro i b hb
    rw [hev.table] at hb
    by_cases hi : i = hash old
    · rw [hi, update_self] at hb
      cases hb
    · rw [update_of_ne hi] at hb
      rcases h.bucket i b hb with ⟨hmem, k, hk, heq⟩
      have hblru : b ≠ lru := by
        rintro rfl
        rw [hold] at hk
        cases hk
        exact hi heq.symm
      exact ⟨by simpa [hblru] using hmem, k, by rw [hev.key b hblru, hk], heq⟩

end

theorem Listed.evict (h : Rep cache (l ++ [lru]) keys stored) (hlist : Listed cache (l ++ [lru]))
    (hbefore : l.getLast? = some before) (hev : Evicted cache cache' before lru old) :
    Listed cache' l := by
  refine ⟨?_, hev.tail.trans hbefore.symm⟩
  exact (isChain_append.1 hlist.chain).1.imp_of_mem_imp fun _ b _ hb hcb =>
    (hev.prev b (h.ne_last hb)).trans hcb

theorem exists_evict (h : Rep cache as keys stored) (ht : Tidy cache as)
    (hlist : Listed cache as) (hfull : as.length = CACHE_SIZE) :
    ∃ cache' l lru, makeRoom cache = some cache' ∧ as = l ++ [lru] ∧
      Rep cache' l keys.dropLast stored ∧ Tidy cache' l ∧ Listed cache' l ∧
      ∀ b, b ≠ lru →
        keyAt cache'.heap b = keyAt cache.heap b ∧ dataAt cache'.heap b = dataAt cache.heap b := by
  rcases eq_nil_or_concat' as with rfl | ⟨l, lru, rfl⟩
  · cases hfull
  -- the cache has more than one place
  obtain ⟨before, hbefore⟩ : ∃ before, l.getLast? = some before := by
    cases l with
    | nil => cases hfull
    | cons b l => exact ⟨_, getLast?_eq_some_getLast (cons_ne_nil b l)⟩
  have hmem : before ∈ l := mem_of_getLast? hbefore
  have hlru : lru ∈ l ++ [lru] := by simp
  have hprev := hlist.prev_last before hbefore
  rcases h.exists_key hlru with ⟨old, -, hold⟩
  have hcount : cache.capacity ≤ cache.count := by rw [h.capacity_eq, h.count_eq, hfull]
  have htail : cache.tail = some lru := by rw [hlist.tail_eq, getLast?_concat]
  rcases makeRoom_spec hcount htail (h.alive hlru) hprev (h.alive (mem_append_left _ hmem))
    h.next_last hold (ht.table_eq lru hlru old hold) with ⟨cache', hroom, hev⟩
  exact ⟨cache', l, lru, hroom, rfl, h.evict ht hprev hold hev hmem, (ht.evict h hprev hold hev).2,
    hlist.evict h hbefore hev, fun b hb => ⟨hev.key b hb, hev.data b hb⟩⟩

end SystemsLab.StringLru
