import SystemsLab.CLib.CArray
import SystemsLab.Data.CallSequence
import SystemsLab.Data.Chain
import SystemsLab.Data.Heap

/-!
# `day-5(Leetcode_LRU)/leetcode-lru-cache.c`, and its list of nodes

A doubly linked list of nodes in the order of their last use, and a hash table with chains of
entries that point to the nodes.  Nodes and entries live in two heaps; a pointer that is not
allocated and an index outside the table make a run fail.  The hints of `lRUCachePut` stand for the
choices of `malloc`, which does not run out of memory.  The loops over a chain get the number of
addresses ever used as a bound and fail at it.

`Listed cache l` says that the list from `head` to `tail` runs through the addresses `l`, in both
directions.  `removeNode` and `addToHead` change this list and nothing else that is said about a
cache (`OnlyLinks`).
-/

namespace SystemsLab.LruCache

def HASH_SIZE : Nat := 10007

structure Node where
  key : Int
  value : Int
  prev : Option Nat
  next : Option Nat

structure Entry where
  key : Int
  node : Option Nat
  next : Option Nat

structure LRUCache where
  capacity : Int
  size : Int
  hashTable : CArray (Option Nat) HASH_SIZE
  head : Option Nat
  tail : Option Nat
  nodes : Heap Node
  entries : Heap Entry

/-- The remainder of a negative key is negative, and far outside the table as an `unsigned int`. -/
def hash (key : Int) : Nat := (key.tmod HASH_SIZE % 4294967296).toNat

/-! ## The list -/

def setNode (cache : LRUCache) (a : Nat) (f : Node → Node) : Option LRUCache := do
  let nodes ← cache.nodes.modify a f
  some { cache with nodes }

def addToHead (cache : LRUCache) (a : Nat) : Option LRUCache := do
  let cache ← setNode cache a fun node => { node with next := cache.head }
  let cache ← setNode cache a fun node => { node with prev := none }
  let cache ←
    match cache.head with
    | some first => setNode cache first fun node => { node with prev := some a }
    | none => some cache
  let cache := { cache with head := some a }
  match cache.tail with
  | some _ => some cache
  | none => some { cache with tail := some a }

/-- The first half of `removeNode`: what is in front of the node leads past it. -/
def linkForward (cache : LRUCache) (node : Node) : Option LRUCache :=
  match node.prev with
  | some before => setNode cache before fun n => { n with next := node.next }
  | none => some { cache with head := node.next }

def linkBackward (cache : LRUCache) (node : Node) : Option LRUCache :=
  match node.next with
  | some after => setNode cache after fun n => { n with prev := node.prev }
  | none => some { cache with tail := node.prev }

def removeNode (cache : LRUCache) (a : Nat) : Option LRUCache := do
  let node ← cache.nodes.cell a
  let cache ← linkForward cache node
  let node ← cache.nodes.cell a
  linkBackward cache node

def removeTail (cache : LRUCache) : Option (LRUCache × Nat) := do
  let tail ← cache.tail
  let cache ← removeNode cache tail
  some (cache, tail)

def moveToHead (cache : LRUCache) (a : Nat) : Option LRUCache := do
  let cache ← removeNode cache a
  addToHead cache a

/-! ## The table -/

def findEntry (entries : Heap Entry) (key : Int) : Nat → Option Nat → Option (Option Nat)
  | 0, _ => none
  | _ + 1, none => some none
  | fuel + 1, some e => do
      let entry ← entries.cell e
      if entry.key = key then some (some e) else findEntry entries key fuel entry.next

def hashGetEntry (cache : LRUCache) (key : Int) : Option (Option Nat) := do
  let first ← cache.hashTable.get (hash key)
  findEntry cache.entries key (cache.entries.brk + 1) first

def hashGet (cache : LRUCache) (key : Int) : Option (Option Nat) := do
  match ← hashGetEntry cache key with
  | some e => do
      let entry ← cache.entries.cell e
      some entry.node
  | none => some none

def hashPut (cache : LRUCache) (key : Int) (node : Nat) (hint : Nat) : Option LRUCache := do
  match ← hashGetEntry cache key with
  | some e => do
      let entries ← cache.entries.modify e fun entry => { entry with node := some node }
      some { cache with entries }
  | none => do
      let first ← cache.hashTable.get (hash key)
      let hashTable ← cache.hashTable.set (hash key) (some (cache.entries.freshAddr hint))
      some { cache with hashTable, entries := cache.entries.alloc hint ⟨key, some node, first⟩ }

def removeEntry (cache : LRUCache) (key : Int) : Nat → Option Nat → Option Nat → Option LRUCache
  | 0, _, _ => none
  | _ + 1, _, none => some cache
  | fuel + 1, prev, some e => do
      let entry ← cache.entries.cell e
      if entry.key = key then do
        let cache ←
          match prev with
          | some before => do
              let entries ← cache.entries.modify before fun x => { x with next := entry.next }
              some { cache with entries }
          | none => do
              let hashTable ← cache.hashTable.set (hash key) entry.next
              some { cache with hashTable }
        some { cache with entries := cache.entries.free e }
      else removeEntry cache key fuel (some e) entry.next

def hashRemove (cache : LRUCache) (key : Int) : Option LRUCache := do
  let first ← cache.hashTable.get (hash key)
  removeEntry cache key (cache.entries.brk + 1) none first

/-! ## The calls -/

def lRUCacheCreate (capacity : Int) : LRUCache :=
  ⟨capacity, 0, .fill none, none, none, .empty, .empty⟩

def lRUCacheGet (cache : LRUCache) (key : Int) : Option (LRUCache × Int) := do
  match ← hashGet cache key with
  | none => some (cache, -1)
  | some a => do
      let cache ← moveToHead cache a
      let node ← cache.nodes.cell a
      some (cache, node.value)

/-- The end of `lRUCachePut`: the last node goes if there are too many. -/
def evict (cache : LRUCache) : Option LRUCache :=
  if cache.capacity < cache.size then do
    let (cache, tail) ← removeTail cache
    let node ← cache.nodes.cell tail
    let cache ← hashRemove cache node.key
    some { cache with nodes := cache.nodes.free tail, size := cache.size - 1 }
  else some cache

def lRUCachePut (cache : LRUCache) (key value : Int) (nodeHint entryHint : Nat) :
    Option LRUCache := do
  match ← hashGet cache key with
  | some a => do
      let cache ← setNode cache a fun node => { node with value }
      moveToHead cache a
  | none => do
      let a := cache.nodes.freshAddr nodeHint
      let cache := { cache with nodes := cache.nodes.alloc nodeHint ⟨key, value, none, none⟩ }
      let cache ← addToHead cache a
      let cache ← hashPut cache key a entryHint
      evict { cache with size := cache.size + 1 }

/-- A call with a key that is not negative. -/
inductive LruCall where
  | put (key : Nat) (value : Int) (nodeHint entryHint : Nat)
  | get (key : Nat)

/-- A cache and what the calls of `lRUCacheGet` returned. -/
structure Session where
  cache : LRUCache
  results : List Int

def sessionCall (s : Session) : LruCall → Option Session
  | .put key value nodeHint entryHint => do
      let cache ← lRUCachePut s.cache key value nodeHint entryHint
      some { s with cache }
  | .get key => do
      let (cache, result) ← lRUCacheGet s.cache key
      some ⟨cache, s.results ++ [result]⟩

/-! ## The list of nodes -/

open List Option Heap

def nextOf (nodes : Heap Node) (a : Nat) : Option (Option Nat) := (nodes.cell a).map Node.next

def prevOf (nodes : Heap Node) (a : Nat) : Option (Option Nat) := (nodes.cell a).map Node.prev

def dataOf (nodes : Heap Node) (a : Nat) : Option (Int × Int) :=
  (nodes.cell a).map fun node => (node.key, node.value)

structure Listed (cache : LRUCache) (l : List Nat) : Prop where
  head : cache.head = l.head?
  tail : cache.tail = l.getLast?
  links : DoublyLinked (nextOf cache.nodes) (prevOf cache.nodes) l

/-- From `cache` to `cache'` at most the links of the list were changed. -/
structure OnlyLinks (cache cache' : LRUCache) : Prop where
  capacity : cache'.capacity = cache.capacity
  size : cache'.size = cache.size
  hashTable : cache'.hashTable = cache.hashTable
  entries : cache'.entries = cache.entries
  data : ∀ b, dataOf cache'.nodes b = dataOf cache.nodes b

variable {cache cache' cache'' : LRUCache} {l l1 l2 : List Nat} {a b : Nat} {node : Node}
  {f : Node → Node}

theorem OnlyLinks.trans (h : OnlyLinks cache cache') (h' : OnlyLinks cache' cache'') :
    OnlyLinks cache cache'' where
  capacity := h'.capacity.trans h.capacity
  size := h'.size.trans h.size
  hashTable := h'.hashTable.trans h.hashTable
  entries := h'.entries.trans h.entries
  data b := (h'.data b).trans (h.data b)

theorem OnlyLinks.exists_cell (h : OnlyLinks cache cache')
    (hnode : cache.nodes.cell a = some node) :
    ∃ node', cache'.nodes.cell a = some node' := by
  have hdata : dataOf cache'.nodes a = some (node.key, node.value) := by
    rw [h.data, dataOf, hnode]
    rfl
  rcases map_eq_some_iff.1 hdata with ⟨node', hnode', -⟩
  exact ⟨node', hnode'⟩

theorem exists_node (hnext : nextOf cache.nodes a = some l1.head?)
    (hprev : prevOf cache.nodes a = some l2.getLast?) :
    ∃ node, cache.nodes.cell a = some node ∧ node.next = l1.head? ∧ node.prev = l2.getLast? := by
  rcases map_eq_some_iff.1 hnext with ⟨node, hnode, hnext⟩
  rw [prevOf, hnode, map_some, some.injEq] at hprev
  exact ⟨node, hnode, hnext, hprev⟩

theorem cell_of_listed (h : Listed cache l) (ha : a ∈ l) :
    ∃ node, cache.nodes.cell a = some node := by
  rcases h.links.forward.exists_next ha with ⟨p, hp⟩
  rcases map_eq_some_iff.1 hp with ⟨node, hnode, -⟩
  exact ⟨node, hnode⟩

theorem Listed.isSome (h : Listed cache l) (ha : a ∈ l) : (cache.nodes.cell a).isSome :=
  isSome_iff_exists.2 (cell_of_listed h ha)

theorem setNode_eq (ha : (cache.nodes.cell a).isSome) (f : Node → Node) :
    setNode cache a f = some { cache with nodes := cache.nodes.assign (some a) f } := by
  rw [setNode, modify_assign ha]
  rfl

/-! ### The operations -/

theorem removeNode_eq (hnode : cache.nodes.cell a = some node) (hself : node.prev ≠ some a)
    (hprev : ∀ c, node.prev = some c → (cache.nodes.cell c).isSome)
    (hnext : ∀ c, node.next = some c → (cache.nodes.cell c).isSome) :
    removeNode cache a = some { cache with
      head := if node.prev = none then node.next else cache.head
      tail := if node.next = none then node.prev else cache.tail
      nodes := (cache.nodes.assign node.prev fun n => { n with next := node.next }).assign node.next
        fun n => { n with prev := node.prev } } := by
  have hforward : linkForward cache node = some { cache with
      head := if node.prev = none then node.next else cache.head
      nodes := cache.nodes.assign node.prev fun n => { n with next := node.next } } := by
    cases hp : node.prev with
    | none => simp [linkForward, hp]
    | some c => simp [linkForward, hp, setNode_eq (hprev c hp)]
  simp only [removeNode, hnode, hforward, bind_eq_bind, bind_some, assign_of_ne hself]
  cases hn : node.next with
  | none => simp [linkBackward, hn]
  | some c => simp [linkBackward, hn, setNode_eq, hnext c hn]

theorem removeNode_spec (h : Listed cache (l1 ++ a :: l2)) :
    ∃ cache', removeNode cache a = some cache' ∧ Listed cache' (l1 ++ l2) ∧
      OnlyLinks cache cache' := by
  rcases exists_node h.links.next_eq h.links.prev_eq with ⟨node, hnode, hnext, hprev⟩
  have hbefore : ∀ c, node.prev = some c → (cache.nodes.cell c).isSome := fun c hc =>
    h.isSome (mem_append_left _ (mem_of_getLast? (hprev ▸ hc)))
  have hafter : ∀ c, node.next = some c → (cache.nodes.cell c).isSome := fun c hc =>
    h.isSome (mem_append_right _ (mem_cons_of_mem _ (mem_of_head? (hnext ▸ hc))))
  -- the node is not the one in front of itself
  have hne : node.prev ≠ some a := fun hlast =>
    (nodup_append.1 h.links.nodup).2.2 a (mem_of_getLast? (hprev ▸ hlast)) a mem_cons_self rfl
  -- the head moves only if the node was the first one, the tail only if it was the last one
  refine ⟨_, removeNode_eq hnode hne hbefore hafter, ⟨?_, ?_, h.links.remove ?_ ?_ ?_ ?_⟩, rfl,
    rfl, rfl, rfl, ?_⟩
  · rw [hprev, hnext, h.head]
    exact DoublyLinked.head?_remove
  · rw [hprev, hnext, h.tail]
    exact DoublyLinked.getLast?_remove
  · intro c hc
    have hc' := hprev.trans hc
    rcases isSome_iff_exists.1 (hbefore c hc') with ⟨v, hv⟩
    simp only [nextOf, cell_assign, hv, hnode]
    split <;> rfl
  · intro b hb
    refine (map_assign (by simp) ..).trans ?_
    rw [assign_of_ne (hprev ▸ hb), nextOf]
  · intro c hc
    have hc' := hnext.trans hc
    rcases isSome_iff_exists.1 (hafter c hc') with ⟨v, hv⟩
    simp [prevOf, cell_assign, hv, hnode, hc']
  · intro b hb
    rw [prevOf, assign_of_ne (hnext ▸ hb)]
    exact map_assign (by simp) ..
  · intro b
    exact (map_assign (by simp) ..).trans (map_assign (by simp) ..)

theorem addToHead_eq (ha : (cache.nodes.cell a).isSome)
    (hhead : ∀ c, cache.head = some c → (cache.nodes.cell c).isSome) :
    addToHead cache a = some { cache with
      head := some a
      tail := cache.tail.or (some a)
      nodes := ((cache.nodes.assign (some a) fun n => { n with next := cache.head }).assign (some a)
        fun n => { n with prev := none }).assign cache.head fun n =>
          { n with prev := some a } } := by
  simp only [addToHead, setNode_eq, ha, isSome_assign, bind_eq_bind, bind_some]
  cases hh : cache.head with
  | none => cases ht : cache.tail <;> simp
  | some c =>
    simp only [setNode_eq, isSome_assign, hhead c hh]
    cases ht : cache.tail <;> simp

theorem addToHead_spec (h : Listed cache l) (ha : a ∉ l) (hnode : cache.nodes.cell a = some node) :
    ∃ cache', addToHead cache a = some cache' ∧ Listed cache' (a :: l) ∧
      OnlyLinks cache cache' := by
  have hmem : ∀ c, cache.head = some c → c ∈ l := fun c hc => mem_of_head? (h.head ▸ hc)
  have hne : cache.head ≠ some a := fun hc => ha (hmem a hc)
  refine ⟨_, addToHead_eq (by simp [hnode]) fun c hc => h.isSome (hmem c hc),
    ⟨rfl, ?_, h.links.cons ha ?_ ?_ ?_ ?_ ?_⟩, rfl, rfl, rfl, rfl, ?_⟩
  · rw [h.tail, getLast?_cons]
    cases l.getLast? <;> rfl
  · simp [nextOf, cell_assign, hnode, hne, ← h.head]
  · intro b hb
    refine (map_assign (by simp) ..).trans ((map_assign (by simp) ..).trans ?_)
    rw [assign_of_ne (by simpa using Ne.symm hb), nextOf]
  · simp [prevOf, cell_assign, hnode, hne]
  · intro c hc
    rcases cell_of_listed h (mem_of_head? hc) with ⟨v, hv⟩
    simp [prevOf, cell_assign, hv, h.head.trans hc]
  · intro b hb hfirst
    simp [prevOf, cell_assign, Ne.symm hb, h.head, hfirst]
  · intro b
    exact (map_assign (by simp) ..).trans
      ((map_assign (by simp) ..).trans (map_assign (by simp) ..))

theorem moveToHead_spec (h : Listed cache (l1 ++ a :: l2)) :
    ∃ cache', moveToHead cache a = some cache' ∧ Listed cache' (a :: (l1 ++ l2)) ∧
      OnlyLinks cache cache' := by
  rcases cell_of_listed h (mem_append_right _ mem_cons_self) with ⟨node, hnode⟩
  rcases removeNode_spec h with ⟨cache1, hremove, hlisted1, honly1⟩
  rcases honly1.exists_cell hnode with ⟨node1, hnode1⟩
  have ha : a ∉ l1 ++ l2 := (nodup_cons.1 (nodup_middle.1 h.links.nodup)).1
  rcases addToHead_spec hlisted1 ha hnode1 with ⟨cache2, hadd, hlisted2, honly2⟩
  exact ⟨cache2, by rw [moveToHead, hremove]; exact hadd, hlisted2, honly1.trans honly2⟩

theorem removeTail_spec (h : Listed cache (l ++ [a])) :
    ∃ cache', removeTail cache = some (cache', a) ∧ Listed cache' l ∧ OnlyLinks cache cache' := by
  rcases removeNode_spec h with ⟨cache', hremove, hlisted, honly⟩
  rw [append_nil] at hlisted
  have htail : cache.tail = some a := by rw [h.tail, getLast?_concat]
  exact ⟨cache', by simp [removeTail, htail, hremove], hlisted, honly⟩

theorem Listed.frame (h : Listed cache l) (hhead : cache'.head = cache.head)
    (htail : cache'.tail = cache.tail) (hsame : ∀ b ∈ l, cache'.nodes.cell b = cache.nodes.cell b) :
    Listed cache' l where
  head := hhead.trans h.head
  tail := htail.trans h.tail
  links := by
    apply h.links.congr
    · intro b hb
      rw [nextOf, hsame b hb, nextOf]
    · intro b hb
      rw [prevOf, hsame b hb, prevOf]

end SystemsLab.LruCache
