import SystemsLab.Data.Buckets
import SystemsLab.Data.ChainBuckets
import SystemsLab.LruCache.Nodes

/-!
# The hash table

A `Slot` is an entry with its address.  `Chained table entries slots` says that the chains of the
table are the lists of entries `slots`, as buckets in the sense of `ChainBuckets`; every entry
stands in the bucket that its key is hashed to, so a negative key has none.

`hashGet` looks a key up in its bucket, `hashPut` of a new key puts an entry in front of a bucket,
and `hashRemove` takes one out.
-/

namespace SystemsLab.LruCache

open Chain ChainBuckets KeyedList Function Option
open List hiding lookup lookup_cons lookup_eq_none_iff

abbrev Slot := ChainBuckets.Item Int (Option Nat)

abbrev mem (entries : Heap Entry) : Memory Int (Option Nat) :=
  .ofHeap entries Entry.next fun e => (e.key, e.node)

def homeOf (key : Int) : Fin HASH_SIZE := ⟨hash key % HASH_SIZE, Nat.mod_lt _ (by decide)⟩

structure Chained (table : CArray (Option Nat) HASH_SIZE) (entries : Heap Entry)
    (slots : Fin HASH_SIZE → List Slot) : Prop where
  buckets : ChainBuckets.Chained (mem entries) homeOf table.slot slots
  home : ∀ i, ∀ s ∈ slots i, hash s.key = i

variable {table : CArray (Option Nat) HASH_SIZE} {entries entries' : Heap Entry}
  {slots : Fin HASH_SIZE → List Slot} {i : Fin HASH_SIZE} {first : Option Nat}
  {s : Slot} {key : Int} {l before after : List Slot}

theorem homeOf_eq (h : hash key = i) : homeOf key = i :=
  Fin.ext (by simp [homeOf, h, Nat.mod_eq_of_lt])

theorem cell_eq (h : Bucket (mem entries) homeOf first i (before ++ s :: after)) :
    entries.cell s.addr = some ⟨s.key, s.val, (after.map Item.addr).head?⟩ := by
  rcases h.cell_eq with ⟨⟨key, node, next⟩, hcell, hdata, hnext⟩
  cases hdata
  exact hnext ▸ hcell

theorem Chained.update (h : Chained table entries slots) (hhome : ∀ s ∈ l, hash s.key = i)
    (hnew : ChainBuckets.Chained (mem entries') homeOf (update table.slot i first)
      (update slots i l)) :
    Chained ⟨update table.slot i first⟩ entries' (update slots i l) := by
  refine ⟨hnew, fun j => ?_⟩
  by_cases hji : j = i
  · rwa [hji, update_self]
  · rw [update_of_ne hji]
    exact h.home j

theorem Chained.get_hash (h : Chained table entries slots) (hkey : hash key = i) :
    table.get (hash key) = some ((slots i).map Item.addr).head? := by
  rw [hkey, CArray.get, dif_pos i.isLt, ← (h.buckets i).start]

theorem set_hash (table : CArray (Option Nat) HASH_SIZE) (hkey : hash key = i) (x : Option Nat) :
    table.set (hash key) x = some ⟨update table.slot i x⟩ := by
  rw [hkey, CArray.set, dif_pos i.isLt]

/-! ## The operations -/

/-- From `cache` to `cache'` at most the table and its entries were changed. -/
structure OnlyTable (cache cache' : LRUCache) : Prop where
  capacity : cache'.capacity = cache.capacity
  size : cache'.size = cache.size
  head : cache'.head = cache.head
  tail : cache'.tail = cache.tail
  nodes : cache'.nodes = cache.nodes

section Operations

variable {cache : LRUCache}

theorem findEntry_spec (h : Bucket (mem entries) homeOf first i (before ++ l)) {fuel : Nat}
    (hfuel : l.length < fuel) :
    findEntry entries key fuel (l.map Item.addr).head? =
      some ((lookup Item.key key l).map Item.addr) := by
  induction l generalizing before fuel with
  | nil =>
    rcases fuel with _ | fuel
    · omega
    rfl
  | cons s l ih =>
    rcases fuel with _ | fuel
    · omega
    have hcell := cell_eq h
    rw [← singleton_append, ← append_assoc] at h
    rw [map_cons, head?_cons, findEntry, hcell, lookup_cons]
    by_cases hkey : s.key = key
    · simp [hkey]
    · simp only [bind_eq_bind, bind_some, if_neg hkey]
      exact ih h (Nat.lt_of_succ_lt_succ hfuel)

section

variable (h : Chained cache.hashTable cache.entries slots)

include h

theorem hashGetEntry_spec (hkey : hash key = i) :
    hashGetEntry cache key = some ((lookup Item.key key (slots i)).map Item.addr) := by
  have hbucket := h.buckets i
  rw [← nil_append (slots i)] at hbucket
  rw [hashGetEntry, h.get_hash hkey]
  exact findEntry_spec hbucket (Nat.lt_succ_of_le (h.buckets i).length_le)

theorem hashGet_spec (hkey : hash key = i) :
    hashGet cache key = some ((lookup Item.key key (slots i)).bind Item.val) := by
  rw [hashGet, hashGetEntry_spec h hkey]
  cases hlookup : lookup Item.key key (slots i) with
  | none => rfl
  | some s =>
    rcases exists_split hlookup with ⟨before, after, hsplit, -⟩
    have hbucket := h.buckets i
    rw [hsplit] at hbucket
    simp [cell_eq hbucket]

theorem hashPut_spec (hkey : hash key = i) (hnew : key ∉ (slots i).map Item.key) (node hint : Nat) :
    ∃ cache' e, hashPut cache key node hint = some cache' ∧ OnlyTable cache cache' ∧
      Chained cache'.hashTable cache'.entries
        (update slots i (⟨e, key, some node⟩ :: slots i)) := by
  have hlookup := lookup_eq_none_iff.2 hnew
  have hput : Bucket (mem (cache.entries.alloc hint ⟨key, some node, cache.hashTable.slot i⟩))
    homeOf
      (some (cache.entries.freshAddr hint)) i (⟨cache.entries.freshAddr hint, key, some node⟩ ::
        slots i) := by
    refine ((h.buckets i).alloc hint _).cons (x := ⟨cache.entries.freshAddr hint, key, _⟩)
      (homeOf_eq hkey) hnew ?_ ?_ <;>
      simp [Memory.ofHeap]
  refine ⟨{ cache with
      hashTable := ⟨update cache.hashTable.slot i (some (cache.entries.freshAddr hint))⟩
      entries := cache.entries.alloc hint ⟨key, some node, cache.hashTable.slot i⟩ },
    cache.entries.freshAddr hint, ?_, ⟨rfl, rfl, rfl, rfl, rfl⟩,
      h.update ?_ (h.buckets.update hput ?_)⟩
  · rw [hashPut, hashGetEntry_spec h hkey, hlookup, h.get_hash hkey, set_hash _ hkey,
      ← (h.buckets i).start]
    rfl
  · exact forall_mem_cons.2 ⟨hkey, h.home i⟩
  · -- `malloc` gives an address that no chain uses
    exact fun j _ x hx =>
      Memory.ofHeap_congr (Heap.alloc_of_ne ((h.buckets j).addr_ne_freshAddr hx hint))

end

theorem removeEntry_skip (h : Bucket (mem cache.entries) homeOf first i (before ++ l ++ s :: after))
    (hkeys : ∀ t ∈ l, t.key ≠ key) (fuel : Nat) (prev : Option Nat) :
    removeEntry cache key (l.length + fuel) prev ((l ++ s :: after).map Item.addr).head? =
      removeEntry cache key fuel ((l.map Item.addr).getLast?.or prev) (some s.addr) := by
  induction l generalizing before prev with
  | nil =>
    rw [length_nil, zero_add]
    rfl
  | cons t l ih =>
    have ht : t.key ≠ key := hkeys t mem_cons_self
    rw [append_assoc] at h
    have hcell := cell_eq h
    rw [← singleton_append, ← append_assoc, ← append_assoc] at h
    have hrest := ih h (fun u hu => hkeys u (mem_cons_of_mem _ hu)) (some t.addr)
    -- `prev` is the last entry that was passed
    have hlast : ((t :: l).map Item.addr).getLast?.or prev =
      (l.map Item.addr).getLast?.or (some t.addr) := by
      rw [map_cons, getLast?_cons]
      cases (l.map Item.addr).getLast? with
      | none => rfl
      | some c => rfl
    rw [hlast, ← hrest, length_cons, add_right_comm, cons_append, map_cons,
      head?_cons, removeEntry, hcell]
    simp [if_neg ht]

variable (h : Chained cache.hashTable cache.entries slots) (hsplit : slots i = before ++ s :: after)

include h hsplit

theorem hashRemove_eq : ∃ fuel, hashRemove cache s.key =
      removeEntry cache s.key (fuel + 1) (before.map Item.addr).getLast? (some s.addr) := by
  have hbucket := h.buckets i
  rw [hsplit] at hbucket
  have hkey : hash s.key = i := h.home i s (by simp [hsplit])
  -- the bound of the loop, as the steps to the entry and those behind it
  obtain ⟨fuel, hfuel⟩ : ∃ fuel, cache.entries.brk + 1 = before.length + (fuel + 1) := by
    have hle := hbucket.length_le
    rw [length_append] at hle
    exact ⟨cache.entries.brk - before.length, by omega⟩
  have hskip : ∀ t ∈ before, t.key ≠ s.key := by
    intro t ht heq
    exact (nodup_map_middle.1 hbucket.keys).1 (mem_map.2 ⟨t, mem_append_left _ ht, heq⟩)
  rw [← nil_append before] at hbucket
  have hrun := removeEntry_skip hbucket hskip (fuel + 1) none
  rw [or_none, ← hfuel] at hrun
  refine ⟨fuel, ?_⟩
  rwa [hashRemove, h.get_hash hkey, hsplit]

theorem hashRemove_spec : ∃ cache', hashRemove cache s.key = some cache' ∧ OnlyTable cache cache' ∧
      Chained cache'.hashTable cache'.entries (update slots i (before ++ after)) := by
  have hbucket := h.buckets i
  have hhome := h.home i
  rw [hsplit] at hbucket hhome
  have hkey : hash s.key = i := hhome s (mem_append_right _ mem_cons_self)
  rcases hashRemove_eq h hsplit with ⟨fuel, hrun⟩
  rw [hrun, removeEntry, cell_eq hbucket]
  have hrest : ∀ t ∈ before ++ after, hash t.key = i := fun t ht =>
    hhome t (((sublist_cons_self s after).append_left before).subset ht)
  have hfree := h.buckets.free hsplit (f := fun x => { x with next := (after.map Item.addr).head? })
    (fun _ => rfl) (by simp)
  cases hprev : (before.map Item.addr).getLast? with
  | none =>
    rw [hprev, Heap.assign_none] at hfree
    rw [getLast?_eq_none_iff, map_eq_nil_iff] at hprev
    subst hprev
    refine ⟨{ cache
      with hashTable := ⟨update cache.hashTable.slot i _⟩, entries := cache.entries.free s.addr },
      ?_,
      ⟨rfl, rfl, rfl, rfl, rfl⟩, h.update hrest hfree⟩
    simp [set_hash _ hkey]
  | some p =>
    have hp := mem_of_getLast? hprev
    have hcell : (cache.entries.cell p).isSome := by
      rcases mem_map.1 hp with ⟨t, ht, rfl⟩
      exact isSome_iff_exists.2 (hbucket.exists_cell (mem_append_left _ ht))
    have hchained := h.update hrest hfree
    rw [h.buckets.start_eq hsplit (by rintro rfl; simp at hp), hprev] at hchained
    refine ⟨{ cache with entries := (cache.entries.assign (some p) _).free s.addr }, ?_,
      ⟨rfl, rfl, rfl, rfl, rfl⟩,
      hchained⟩
    simp [Heap.modify_assign hcell]

end Operations

end SystemsLab.LruCache
