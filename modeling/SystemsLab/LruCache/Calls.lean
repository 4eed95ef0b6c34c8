import SystemsLab.LruCache.Table

/-!
# The cache as a least-recently-used map

`Represents cache items slots` ties the two structures together: the list has the nodes `items`, the
table the entries `slots`, and the entries point to the nodes, each to one.  A call changes the
items as a least-recently-used map changes its recency list.
-/

namespace SystemsLab.LruCache

open Buckets CallSequence KeyedList RecencyList Option Heap
open List hiding lookup lookup_cons lookup_eq_none_iff

/-- A node with its address. -/
structure Item where
  addr : Nat
  key : Int
  value : Int

def Item.pair (x : Item) : Int × Int := (x.key, x.value)

structure Represents (cache : LRUCache) (items : List Item) (slots : Fin HASH_SIZE → List Slot) :
    Prop where
  listed : Listed cache (items.map Item.addr)
  data : ∀ x ∈ items, dataOf cache.nodes x.addr = some (x.key, x.value)
  keys : (items.map Item.key).Nodup
  chained : Chained cache.hashTable cache.entries slots
  same : ((contents slots).map fun s => (s.key, s.val)).Perm
    (items.map fun x => (x.key, some x.addr))
  size : cache.size = items.length

section Calls

variable {cache cache' : LRUCache} {items l1 l2 : List Item} {slots : Fin HASH_SIZE → List Slot}
  {x : Item} {i : Fin HASH_SIZE} {key : Int}

theorem create_represents (capacity : Int) :
    Represents (lRUCacheCreate capacity) [] fun _ => [] where
  listed := ⟨rfl, rfl, DoublyLinked.nil⟩
  data x hx := absurd hx not_mem_nil
  keys := nodup_nil
  chained := ⟨fun i => .empty _ _ i, nofun⟩
  same := by simp [contents]
  size := rfl

/-! ### Looking a key up -/

/-- The entry of a node stands in the bucket of its key. -/
theorem Represents.exists_slot (h : Represents cache items slots) (hx : x ∈ items) :
    ∃ i, ∃ s ∈ slots i, s.key = x.key ∧ s.val = some x.addr := by
  have hmem := h.same.symm.subset (mem_map_of_mem hx)
  rcases List.mem_map.1 hmem with ⟨s, hs, heq⟩
  rcases mem_contents.1 hs with ⟨i, hi⟩
  exact ⟨i, s, hi, congrArg Prod.fst heq, congrArg Prod.snd heq⟩

theorem Represents.key_mem (h : Represents cache items slots)
    (hkey : key ∈ (slots i).map ChainBuckets.Item.key) : key ∈ items.map Item.key := by
  rcases List.mem_map.1 hkey with ⟨s, hs, rfl⟩
  have hpair := h.same.subset (mem_map_of_mem (mem_contents.2 ⟨i, hs⟩))
  rcases List.mem_map.1 hpair with ⟨x, hx, heq⟩
  exact List.mem_map.2 ⟨x, hx, congrArg Prod.fst heq⟩

theorem Represents.lookup_slot (h : Represents cache items slots) (hkey : hash key = i) :
    (lookup ChainBuckets.Item.key key (slots i)).bind ChainBuckets.Item.val =
      (lookup Item.key key items).map Item.addr := by
  cases hitem : lookup Item.key key items with
  | none =>
    rw [lookup_eq_none_iff] at hitem
    rw [lookup_eq_none_iff.2 fun hmem => hitem (h.key_mem hmem)]
    rfl
  | some x =>
    rcases mem_of_lookup hitem with ⟨hx, rfl⟩
    rcases h.exists_slot hx with ⟨j, s, hs, hskey, hnode⟩
    have hji : j = i := by
      apply Fin.ext
      rw [← h.chained.home j s hs, hskey, hkey]
    subst hji
    rw [lookup_of_mem (h.chained.buckets j).keys hs hskey, map_some, bind_some, hnode]

theorem hash_natCast (key : Nat) : hash key = key % HASH_SIZE := by
  have hlt : key % HASH_SIZE < 2 ^ 32 := (Nat.mod_lt key (by decide)).trans (by decide)
  have hmod : (key : Int).tmod HASH_SIZE = (key % HASH_SIZE : Nat) :=
    (Int.ofNat_tmod key HASH_SIZE).symm
  rw [hash, hmod]
  omega

def bucketOf (key : Nat) : Fin HASH_SIZE := ⟨key % HASH_SIZE, Nat.mod_lt key (by decide)⟩

theorem hash_bucketOf (key : Nat) : hash key = bucketOf key := hash_natCast key

theorem Represents.hashGet_eq (h : Represents cache items slots) (key : Nat) :
    hashGet cache key = some ((lookup Item.key (key : Int) items).map Item.addr) := by
  rw [hashGet_spec h.chained (hash_bucketOf key), h.lookup_slot (hash_bucketOf key)]

/-! ### Using a key -/

theorem Represents.move (h : Represents cache (l1 ++ x :: l2) slots) :
    ∃ cache', moveToHead cache x.addr = some cache' ∧ Represents cache' (x :: (l1 ++ l2)) slots ∧
      cache'.capacity = cache.capacity := by
  have hlisted := h.listed
  rw [map_append, map_cons] at hlisted
  rcases moveToHead_spec hlisted with ⟨cache', hmove, hlisted', honly⟩
  have hperm : (l1 ++ x :: l2).Perm (x :: (l1 ++ l2)) := perm_middle
  refine ⟨cache', hmove, ⟨?_, ?_, ?_, ?_, ?_, ?_⟩, honly.capacity⟩
  · rwa [map_cons, map_append]
  · intro y hy
    rw [honly.data]
    exact h.data y (hperm.symm.subset hy)
  · exact (hperm.map _).nodup_iff.1 h.keys
  · rw [honly.hashTable, honly.entries]
    exact h.chained
  · exact h.same.trans (hperm.map _)
  · rw [honly.size, h.size, hperm.length_eq]

theorem Represents.setValue (h : Represents cache (l1 ++ x :: l2) slots) (value : Int) :
    ∃ cache', setNode cache x.addr (fun node => { node with value }) = some cache' ∧
      Represents cache' (l1 ++ { x with value } :: l2) slots ∧
        cache'.capacity = cache.capacity := by
  have hx := h.data x (mem_append_right _ mem_cons_self)
  have hnodup := nodup_map_middle.1 h.listed.links.nodup
  have haddrs : (l1 ++ { x with value } :: l2).map Item.addr = (l1 ++ x :: l2).map Item.addr := by
    simp
  refine ⟨_, setNode_eq (h.listed.isSome (by simp)) _,
    ⟨haddrs ▸ ⟨h.listed.head, h.listed.tail, ?_⟩, ?_,
    by simpa using h.keys, h.chained, by simpa using h.same, by simpa using h.size⟩, rfl⟩
  · exact h.listed.links.congr (fun _ _ => map_assign (by simp) ..) fun _ _ =>
      map_assign (by simp) ..
  · intro y hy
    rcases mem_cons.1 (perm_middle.subset hy) with rfl | hy
    · rcases map_eq_some_iff.1 hx with ⟨node, hnode, hdata⟩
      rw [Prod.mk.injEq] at hdata
      simp [dataOf, cell_assign, hnode, hdata.1]
    · have hne : y.addr ≠ x.addr := fun heq => hnodup.1 (List.mem_map.2 ⟨y, hy, heq⟩)
      rw [dataOf, assign_of_ne (by simpa using Ne.symm hne)]
      exact h.data y (perm_middle.symm.subset (mem_cons_of_mem _ hy))

/-! ### A new key -/

theorem Represents.insert (h : Represents cache items slots) (hkey : hash key = i)
    (hnew : key ∉ items.map Item.key) (value : Int) (nodeHint entryHint : Nat) :
    ∃ cache1 cache2 slots', addToHead
        { cache with nodes := cache.nodes.alloc nodeHint ⟨key, value, none, none⟩ }
        (cache.nodes.freshAddr nodeHint) = some cache1 ∧
      hashPut cache1 key (cache.nodes.freshAddr nodeHint) entryHint = some cache2 ∧
      Represents { cache2 with size := cache2.size + 1 }
        (⟨cache.nodes.freshAddr nodeHint, key, value⟩ :: items) slots' ∧
      cache2.capacity = cache.capacity := by
  have hslot : key ∉ (slots i).map ChainBuckets.Item.key := fun hmem => hnew (h.key_mem hmem)
  -- the new node is at none of the addresses in the list, so the list does not notice it
  have hne : ∀ b ∈ items.map Item.addr, b ≠ cache.nodes.freshAddr nodeHint := by
    rintro b hb rfl
    rcases cell_of_listed h.listed hb with ⟨node, hnode⟩
    rw [cache.nodes.cell_freshAddr] at hnode
    cases hnode
  have hsame : ∀ b ∈ items.map Item.addr,
      (cache.nodes.alloc nodeHint ⟨key, value, none, none⟩).cell b = cache.nodes.cell b :=
    fun b hb => alloc_of_ne (hne b hb)
  have hcell := cache.nodes.alloc_self nodeHint ⟨key, value, none, none⟩
  have hlisted : Listed { cache with nodes := cache.nodes.alloc nodeHint ⟨key, value, none, none⟩ }
      (items.map Item.addr) := h.listed.frame rfl rfl hsame
  rcases addToHead_spec hlisted (fun hmem => hne _ hmem rfl) hcell
    with ⟨cache1, hadd, hlisted1, honly⟩
  have hchained1 : Chained cache1.hashTable cache1.entries slots := by
    rw [honly.hashTable, honly.entries]
    exact h.chained
  rcases hashPut_spec hchained1 hkey hslot (cache.nodes.freshAddr nodeHint) entryHint with
    ⟨cache2, e, hput, htable, hchained2⟩
  have hdata : ∀ b, dataOf cache2.nodes b =
    dataOf (cache.nodes.alloc nodeHint ⟨key, value, none, none⟩) b := by
    intro b
    rw [htable.nodes]
    exact honly.data b
  refine ⟨cache1, cache2, _, hadd, hput, ⟨?_, ?_, ?_, hchained2, ?_, ?_⟩,
    htable.capacity.trans honly.capacity⟩
  · exact hlisted1.frame htable.head htable.tail fun b _ => by rw [htable.nodes]
  · intro y hy
    rcases mem_cons.1 hy with rfl | hy
    · rw [hdata, dataOf, hcell]
      rfl
    · rw [hdata, dataOf, hsame _ (mem_map_of_mem hy)]
      exact h.data y hy
  · exact nodup_cons.2 ⟨hnew, h.keys⟩
  · exact ((contents_insert slots i _).map _).trans (h.same.cons _)
  · have hsize : cache2.size = cache.size := htable.size.trans honly.size
    rw [hsize, h.size]
    rfl

/-! ### Too many nodes -/

theorem Represents.removeLast (h : Represents cache (items ++ [x]) slots) :
    ∃ cache1 node cache2 slots', removeTail cache = some (cache1, x.addr) ∧
      cache1.nodes.cell x.addr = some node ∧ hashRemove cache1 node.key = some cache2 ∧
      Represents { cache2 with nodes := cache2.nodes.free x.addr, size := cache2.size - 1 }
        items slots' ∧
      cache2.capacity = cache.capacity := by
  have hx : x ∈ items ++ [x] := mem_append_right _ (mem_singleton_self x)
  have hlisted := h.listed
  rw [map_append] at hlisted
  have hnodup := hlisted.links.nodup
  rcases removeTail_spec hlisted with ⟨cache1, htail, hlisted1, honly⟩
  have hnode : dataOf cache1.nodes x.addr = some (x.key, x.value) := by
    rw [honly.data]
    exact h.data x hx
  rcases map_eq_some_iff.1 hnode with ⟨node, hcell, hpair⟩
  rw [Prod.mk.injEq] at hpair
  -- the entry to be removed is the one that points to the last node
  rcases h.exists_slot hx with ⟨i, s, hs, hskey, hsnode⟩
  rcases append_of_mem hs with ⟨before, after, hsplit⟩
  have hchained1 : Chained cache1.hashTable cache1.entries slots := by
    rw [honly.hashTable, honly.entries]
    exact h.chained
  rcases hashRemove_spec hchained1 hsplit with ⟨cache2, hremove, htable, hchained2⟩
  have hne : ∀ b ∈ items.map Item.addr, b ≠ x.addr := by
    rintro b hb rfl
    exact (nodup_append.1 hnodup).2.2 _ hb _ (mem_singleton_self _) rfl
  have hfree : ∀ b ∈ items.map Item.addr, (cache2.nodes.free x.addr).cell b =
    cache1.nodes.cell b := by
    intro b hb
    rw [free_of_ne (hne b hb), htable.nodes]
  refine ⟨cache1, node, cache2, _, htail, hcell, by rw [hpair.1, ← hskey]; exact hremove,
    ⟨?_, ?_, ?_, hchained2, ?_, ?_⟩, htable.capacity.trans honly.capacity⟩
  · exact hlisted1.frame htable.head htable.tail hfree
  · intro y hy
    rw [dataOf, hfree _ (mem_map_of_mem hy)]
    exact (honly.data _).trans (h.data y (mem_append_left _ hy))
  · have hkeys := h.keys
    rw [map_append] at hkeys
    exact (nodup_append.1 hkeys).1
  · -- the slot and the item are the same pair, and are gone on both sides
    have hslots := (contents_remove hsplit).map fun s => (s.key, s.val)
    have hitems : ((items ++ [x]).map fun x => (x.key, some x.addr)).Perm
        ((x :: items).map fun x => (x.key, some x.addr)) := (perm_append_singleton x items).map _
    have hboth := hslots.symm.trans (h.same.trans hitems)
    rw [map_cons, map_cons, hskey, hsnode] at hboth
    exact hboth.cons_inv
  · have hsize : cache2.size = cache.size := htable.size.trans honly.size
    have hlen : (items ++ [x]).length = items.length + 1 := by simp
    rw [h.size, hlen] at hsize
    dsimp only
    omega

variable (h : Represents cache items slots)

include h

/-- Eviction cuts the list back to the capacity. -/
theorem evict_spec (hpos : items ≠ []) (hlength : items.length ≤ cache.capacity.toNat + 1) :
    ∃ cache' slots', evict cache = some cache' ∧
      Represents cache' (items.take cache.capacity.toNat) slots' ∧
        cache'.capacity = cache.capacity := by
  by_cases hfull : cache.capacity < cache.size
  · rcases items.eq_nil_or_concat with rfl | ⟨rest, x, rfl⟩
    · exact absurd rfl hpos
    rw [concat_eq_append] at *
    rcases h.removeLast with ⟨cache1, node, cache2, slots', htail, hcell, hremove, hrep, hcap⟩
    -- one node too many: with a negative capacity it is the only one
    have hrest : rest.length = cache.capacity.toNat := by
      rw [h.size] at hfull
      rw [length_append, length_singleton] at hfull hlength
      omega
    refine ⟨{ cache2 with nodes := cache2.nodes.free x.addr, size := cache2.size - 1 },
      slots', ?_, ?_, hcap⟩
    · simp [evict, if_pos hfull, htail, hcell, hremove]
    · rwa [← hrest, take_left]
  · refine ⟨cache, slots, if_neg hfull, ?_, rfl⟩
    rw [h.size] at hfull
    rwa [take_of_length_le (by omega)]

/-! ### The calls -/

theorem lRUCacheGet_spec (key : Nat) : ∃ cache', lRUCacheGet cache key =
        some (cache', ((lookup Item.key (key : Int) items).map Item.value).getD (-1)) ∧
      Represents cache' (touch Item.key (key : Int) id items) slots ∧
        cache'.capacity = cache.capacity := by
  cases hlookup : lookup Item.key (key : Int) items with
  | none =>
    refine ⟨cache, ?_, ?_, rfl⟩
    · rw [lRUCacheGet, h.hashGet_eq, hlookup]
      rfl
    · rwa [touch_of_none hlookup]
  | some x =>
    rcases exists_split hlookup with ⟨l1, l2, rfl, -, herase⟩
    rcases h.move with ⟨cache', hmove, hrep, hcap⟩
    rcases map_eq_some_iff.1 (hrep.data x mem_cons_self) with ⟨node, hnode, hdata⟩
    refine ⟨cache', ?_, ?_, hcap⟩
    · rw [Prod.mk.injEq] at hdata
      simp [lRUCacheGet, h.hashGet_eq, hlookup, hmove, hnode, hdata.2]
    · rwa [touch_of_split hlookup herase]

theorem lRUCachePut_hit {key : Nat}
    (hlookup : lookup Item.key (key : Int) items = some x) (value : Int)
    (nodeHint entryHint : Nat) :
    ∃ cache', lRUCachePut cache key value nodeHint entryHint = some cache' ∧
      Represents cache' (touch Item.key (key : Int) (fun x => { x with value }) items) slots ∧
      cache'.capacity = cache.capacity := by
  rcases exists_split hlookup with ⟨l1, l2, rfl, -, herase⟩
  rcases h.setValue value with ⟨cache1, hset, hrep1, hcap1⟩
  rcases hrep1.move with ⟨cache2, hmove, hrep2, hcap2⟩
  refine ⟨cache2, ?_, ?_, hcap2.trans hcap1⟩
  · simp only [lRUCachePut, h.hashGet_eq, hlookup, map_some, bind_eq_bind, bind_some, hset]
    exact hmove
  · rwa [touch_of_split hlookup herase]

theorem lRUCachePut_miss {key : Nat} (hlookup : lookup Item.key (key : Int) items = none)
    (hlength : items.length ≤ cache.capacity.toNat) (value : Int) (nodeHint entryHint : Nat) :
    ∃ cache' a slots', lRUCachePut cache key value nodeHint entryHint = some cache' ∧
      Represents cache' (push cache.capacity.toNat ⟨a, key, value⟩ items) slots' ∧
      cache'.capacity = cache.capacity := by
  rcases h.insert (hash_bucketOf key) (lookup_eq_none_iff.1 hlookup) value nodeHint entryHint with
    ⟨cache1, cache2, slots2, hadd, hput, hrep, hcap⟩
  rcases evict_spec hrep (cons_ne_nil _ _)
    (by rw [← hcap] at hlength; exact Nat.succ_le_succ hlength)
    with ⟨cache3, slots3, hevict, hrep3, hcap3⟩
  refine ⟨cache3, cache.nodes.freshAddr nodeHint, slots3, ?_, ?_, hcap3.trans hcap⟩
  · simp [lRUCachePut, h.hashGet_eq, hlookup, hadd, hput, hevict]
  · rwa [push, ← hcap]

end Calls

/-! ## The reference -/

/-- The pairs of a least-recently-used map, most recent first, and what it has returned. -/
structure Reference where
  list : List (Int × Int)
  results : List Int

def Reference.empty : Reference := ⟨[], []⟩

def referenceCall (capacity : Nat) (r : Reference) : LruCall → Reference
  | .put key value _ _ =>
    if (key : Int) ∈ r.list.map Prod.fst then
      { r with list := touch Prod.fst (key : Int) (fun p => (p.1, value)) r.list }
    else { r with list := push capacity ((key : Int), value) r.list }
  | .get key =>
    ⟨touch Prod.fst (key : Int) id r.list,
      r.results ++ [((lookup Prod.fst (key : Int) r.list).map Prod.snd).getD (-1)]⟩

/-- The cache is in the state that the reference is in. -/
def Agrees (capacity : Int) (s : Session) (r : Reference) : Prop :=
  s.results = r.results ∧ ∃ items slots, Represents s.cache items slots ∧
    items.map Item.pair = r.list ∧
    items.length ≤ capacity.toNat ∧ s.cache.capacity = capacity

variable {capacity : Int} {s : Session} {r : Reference}

theorem get_agrees (h : Agrees capacity s r) (key : Nat) :
    ∃ s', sessionCall s (.get key) = some s' ∧
      Agrees capacity s' (referenceCall capacity.toNat r (.get key)) := by
  rcases h with ⟨hresults, items, slots, hrep, hlist, hlength, hcap⟩
  rcases lRUCacheGet_spec hrep key with ⟨cache', hget, hrep', hcap'⟩
  have hview : lookup Prod.fst (key : Int) (items.map Item.pair) =
      (lookup Item.key (key : Int) items).map Item.pair := map_lookup fun _ => rfl
  have htouch : (touch Item.key (key : Int) id items).map Item.pair =
      touch Prod.fst (key : Int) id (items.map Item.pair) := map_touch (fun _ => rfl) fun _ => rfl
  refine ⟨⟨cache', s.results ++ [((lookup Item.key (key : Int) items).map Item.value).getD (-1)]⟩,
    ?_, ?_, _,
    slots, hrep', ?_, ?_, hcap'.trans hcap⟩
  · simp [sessionCall, hget]
  · rw [referenceCall, ← hlist, hview, Option.map_map, hresults]
    rfl
  · rw [htouch, hlist]
    rfl
  · rwa [length_touch]

theorem put_agrees (h : Agrees capacity s r) (key : Nat) (value : Int) (nodeHint entryHint : Nat) :
    ∃ s', sessionCall s (.put key value nodeHint entryHint) = some s' ∧
      Agrees capacity s' (referenceCall capacity.toNat r (.put key value nodeHint entryHint)) := by
  rcases h with ⟨hresults, items, slots, hrep, hlist, hlength, hcap⟩
  have hkeys : r.list.map Prod.fst = items.map Item.key := by
    rw [← hlist, List.map_map]
    rfl
  rw [referenceCall, hkeys]
  cases hlookup : lookup Item.key (key : Int) items with
  | none =>
    rw [← hcap] at hlength
    rcases lRUCachePut_miss hrep hlookup hlength value nodeHint entryHint with
      ⟨cache', a, slots', hput, hrep', hcap'⟩
    refine ⟨{ s with cache := cache' }, by simp [sessionCall, hput], ?_⟩
    rw [if_neg (lookup_eq_none_iff.1 hlookup)]
    refine ⟨hresults, _, slots', hrep', ?_, ?_, hcap'.trans hcap⟩
    · rw [map_push, hlist, hcap]
      rfl
    · rw [push, hcap]
      exact length_take_le _ _
  | some x =>
    rcases lRUCachePut_hit hrep hlookup value nodeHint entryHint with ⟨cache', hput, hrep', hcap'⟩
    have hmem : (key : Int) ∈ items.map Item.key := by
      rcases mem_of_lookup hlookup with ⟨hx, hkey⟩
      exact List.mem_map.2 ⟨x, hx, hkey⟩
    refine ⟨{ s with cache := cache' }, by simp [sessionCall, hput], ?_⟩
    rw [if_pos hmem]
    refine ⟨hresults, _, slots, hrep', ?_, ?_, hcap'.trans hcap⟩
    · rw [← hlist]
      exact map_touch (fun _ => rfl) fun _ => rfl
    · rwa [length_touch]

/-- After any calls the cache is the least-recently-used map of its capacity. -/
theorem lru_refines_reference (capacity : Int) (calls : List LruCall) :
    ∃ s items slots, runCalls sessionCall ⟨lRUCacheCreate capacity, []⟩ calls = some s ∧
      s.results = (calls.foldl (referenceCall capacity.toNat) .empty).results ∧
        Represents s.cache items slots ∧
      items.map Item.pair = (calls.foldl (referenceCall capacity.toNat) .empty).list ∧
      s.cache.size ≤ max capacity 0 := by
  have hstep : ∀ s r c, Agrees capacity s r →
      ∃ s', sessionCall s c = some s' ∧ Agrees capacity s' (referenceCall capacity.toNat r c) := by
    intro s r c h
    cases c with
    | put key value nodeHint entryHint => exact put_agrees h key value nodeHint entryHint
    | get key => exact get_agrees h key
  have hinit : Agrees capacity ⟨lRUCacheCreate capacity, []⟩ .empty :=
    ⟨rfl, [], _, create_represents capacity, rfl, Nat.zero_le _, rfl⟩
  rcases runCalls_simulates _ hstep hinit calls
    with ⟨s, hrun, hresults, items, slots, hrep, hlist, hlength, -⟩
  refine ⟨s, items, slots, hrun, hresults, hrep, hlist, ?_⟩
  rw [hrep.size]
  omega

end SystemsLab.LruCache
