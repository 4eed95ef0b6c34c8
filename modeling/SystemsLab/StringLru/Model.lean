import SystemsLab.Data.Heap
import SystemsLab.Data.Recent
import SystemsLab.FileCache.Model

/-!
# `day-2(LRU)/lru-cache.c`, and what its calls mean

A node is in two lists at once: the list of all nodes in the order of their last use, and the chain
of its hash bucket.  Both go through the same `next` pointer.  The nodes live in a heap; a run fails
if it follows a pointer to memory that is not allocated.  The hint of `cachePut` stands for the
choice of `malloc`, which does not run out of memory.  The messages are left out.  The loops over a
chain get the number of addresses ever used as a bound and fail at it.

The meaning of the calls is given by the keys used so far, in the order of time, and the data last
put under each key.  A key is cached if it is one of the `CACHE_SIZE` most recently used distinct
keys.

The last part says which calls the program serves as it should.  The `next` pointers serve two
lists, so two things go wrong:

- once two cached keys share a bucket, moving a node or taking one out breaks the chain of the
  bucket;
- a node that is taken from the middle of the list may have lost the link to the node behind it,
  which then leads back to the wrong place; this shows when the tail is taken out later.
-/

namespace SystemsLab.StringLru

open FileCache (hash CACHE_SIZE)

def KEY_SIZE : Nat := 32

def DATA_SIZE : Nat := 256

instance neZeroKeySize : NeZero KEY_SIZE := ⟨by decide⟩

instance neZeroDataSize : NeZero DATA_SIZE := ⟨by decide⟩

structure Node where
  key : CBuf KEY_SIZE
  data : CBuf DATA_SIZE
  prev : Option Nat
  next : Option Nat

structure Cache where
  head : Option Nat
  tail : Option Nat
  table : Fin CACHE_SIZE → Option Nat
  count : Int
  capacity : Int
  heap : Heap Node

def createLruCache : Cache := ⟨none, none, fun _ => none, 0, CACHE_SIZE, .empty⟩

/-! ## The list -/

/-- An assignment through a pointer to a node. -/
def setNode (cache : Cache) (a : Nat) (f : Node → Node) : Option Cache := do
  let heap ← cache.heap.modify a f
  some { cache with heap }

/-- `if (p) p->field = ..;` -/
def setPtr (cache : Cache) (p : Option Nat) (f : Node → Node) : Option Cache :=
  match p with
  | some a => setNode cache a f
  | none => some cache

def addToFront (cache : Cache) (a : Nat) : Option Cache := do
  let cache ← setNode cache a fun n => { n with prev := none }
  let cache ← setNode cache a fun n => { n with next := cache.head }
  let cache ← setPtr cache cache.head fun n => { n with prev := some a }
  let cache := { cache with head := some a }
  some (if cache.tail = none then { cache with tail := some a } else cache)

/-- The first part of `move_to_front`: the neighbours of the node are linked to each other. -/
def unlink (cache : Cache) (a : Nat) : Option Cache := do
  let node ← cache.heap.cell a
  let cache ← setPtr cache node.prev fun n => { n with next := node.next }
  let node ← cache.heap.cell a
  let cache ← setPtr cache node.next fun n => { n with prev := node.prev }
  let node ← cache.heap.cell a
  some (if cache.tail = some a then { cache with tail := node.prev } else cache)

def moveToFront (cache : Cache) (a : Nat) : Option Cache :=
  if cache.head = some a then some cache
  else do
    let cache ← unlink cache a
    -- the rest is the body of `add_to_front`
    addToFront cache a

def removeLru (cache : Cache) : Option (Cache × Option Nat) :=
  match cache.tail with
  | none => some (cache, none)
  | some lru => do
      let node ← cache.heap.cell lru
      let cache ←
        match node.prev with
        | some before => setNode cache before fun n => { n with next := none }
        | none => some { cache with head := none }
      let node ← cache.heap.cell lru
      some ({ cache with tail := node.prev }, some lru)

/-! ## The calls -/

/-- The loop that looks for a key along `next`. -/
def findNode (heap : Heap Node) (key : CString) : Nat → Option Nat → Option (Option Nat)
  | 0, _ => none
  | _ + 1, none => some none
  | fuel + 1, some a => do
      let node ← heap.cell a
      if node.key.str = key then some (some a) else findNode heap key fuel node.next

/-- The search from the bucket of the key. -/
def lookup (cache : Cache) (key : CString) : Option (Option Nat) :=
  findNode cache.heap key (cache.heap.brk + 1) (cache.table (hash key))

/-- `cache_get`; the result is the node whose data is returned, or `NULL`. -/
def cacheGet (cache : Cache) (key : CString) : Option (Cache × Option Nat) := do
  match ← lookup cache key with
  | some a => do
      let cache ← moveToFront cache a
      some (cache, some a)
  | none => some (cache, none)

/-- The eviction in `cache_put`. -/
def makeRoom (cache : Cache) : Option Cache :=
  if cache.capacity ≤ cache.count then do
    match ← removeLru cache with
    | (cache, none) => some cache
    | (cache, some lru) => do
        let node ← cache.heap.cell lru
        let i := hash node.key.str
        let table :=
          if cache.table i = some lru then Function.update cache.table i node.next else cache.table
        some { cache with table, heap := cache.heap.free lru, count := cache.count - 1 }
  else some cache

/-- The end of `cache_put`: a node goes to the front of the list and of its bucket. -/
def linkNew (cache : Cache) (a : Nat) (key : CString) : Option Cache := do
  let cache ← addToFront cache a
  -- the chain of the bucket takes the place of the link to the old head
  let cache ← setNode cache a fun n => { n with next := cache.table (hash key) }
  some { cache with
         table := Function.update cache.table (hash key) (some a), count := cache.count + 1 }

/-- `cache_put` for a key that was not found. -/
def insertNew (cache : Cache) (key data : CString) (hint : Nat) : Option Cache := do
  let a := cache.heap.freshAddr hint
  let cache := { cache with heap := cache.heap.alloc hint ⟨.copy key, .copy data, none, none⟩ }
  let cache ← makeRoom cache
  linkNew cache a key

def cachePut (cache : Cache) (key data : CString) (hint : Nat) : Option Cache := do
  match ← cacheGet cache key with
  | (cache, some _) => do
      let current ← lookup cache key
      setPtr cache current fun n => { n with data := .copy data }
  | (cache, none) => insertNew cache key data hint

inductive CacheCall where
  | put (key data : CString) (hint : Nat)
  | get (key : CString)

def dataAt (heap : Heap Node) (a : Nat) : Option CString := (heap.cell a).map fun n => n.data.str

structure Session where
  cache : Cache
  results : List (Option CString)

def Session.init : Session := ⟨createLruCache, []⟩

def sessionCall (s : Session) : CacheCall → Option Session
  | .put key data hint => do
      let cache ← cachePut s.cache key data hint
      some { s with cache }
  | .get key => do
      let (cache, result) ← cacheGet s.cache key
      some ⟨cache, s.results ++ [result.bind (dataAt cache.heap)]⟩

/-! ## The meaning of the calls -/

open Recent (recent keep)

structure History where
  /-- the keys of the calls that count as a use, the last one at the end -/
  uses : List CString
  /-- the data of the last `cache_put` of a key -/
  stored : CString → Option CString
  /-- a key was used that was neither the first nor the last of the cached keys -/
  disturbed : Bool
  results : List (Option CString)

namespace History

def init : History := ⟨[], fun _ => none, false, []⟩

/-- The most recently used distinct keys, the last one used in front. -/
def cached (h : History) : List CString := (recent h.uses).take CACHE_SIZE

/-- A cached key that is neither the most nor the least recently used one. -/
def inside (h : History) (key : CString) : Bool :=
  key ∈ h.cached && h.cached.head? != some key && h.cached.getLast? != some key

def use (h : History) (key : CString) : History :=
  { h with uses := h.uses ++ [key], disturbed := h.disturbed || h.inside key }

def call (h : History) : CacheCall → History
  | .put key data _ => { h.use key with stored := Function.update h.stored key (some data) }
  | .get key =>
    if key ∈ h.cached then { h.use key with results := h.results ++ [h.stored key] }
    else { h with results := h.results ++ [none] }

/-! ## Calls that are served -/

/-- No two cached keys share a bucket. -/
def spread (h : History) : Bool := decide (h.cached.map hash).Nodup

/-- A cached key may be used again if it is the last one used, or no bucket is shared. -/
def allowsUse (h : History) (key : CString) : Bool := h.cached.head? == some key || h.spread

/-- A new key needs a free place, or a list whose tail can be taken out. -/
def allowsNew (h : History) : Bool :=
  decide (h.cached.length < CACHE_SIZE) || h.spread && !h.disturbed

def allows (h : History) : CacheCall → Bool
  | .put key _ _ => if key ∈ h.cached then h.allowsUse key else h.allowsNew
  | .get key => key ∉ h.cached || h.allowsUse key

/-- Every call comes when it is allowed. -/
def allowed : History → List CacheCall → Bool
  | _, [] => true
  | h, c :: calls => h.allows c && allowed (h.call c) calls

/-! ## The cached keys -/

variable {h : History} {key : CString}

theorem cached_use (h : History) (key : CString) :
    (h.use key).cached = keep CACHE_SIZE h.cached key := Recent.take_recent_concat _ _ _

theorem length_cached_le (h : History) : h.cached.length ≤ CACHE_SIZE := List.length_take_le _ _

end History

/-- The strings of a call fit into the buffers of a node. -/
def CacheCall.Fits : CacheCall → Prop
  | .put key data _ => key.bytes.length < KEY_SIZE ∧ data.bytes.length < DATA_SIZE
  | .get key => key.bytes.length < KEY_SIZE

instance (c : CacheCall) : Decidable c.Fits :=
  match c with
  | .put key data _ =>
    inferInstanceAs (Decidable (key.bytes.length < KEY_SIZE ∧ data.bytes.length < DATA_SIZE))
  | .get key => inferInstanceAs (Decidable (key.bytes.length < KEY_SIZE))

/-! ## The pointers after the list operations

A heap is read through four functions: the key and the data at an address, and its two links.  Every
operation on the list is described by what it does to them.
 -/

open Option Heap

def keyAt (heap : Heap Node) (a : Nat) : Option CString := (heap.cell a).map fun n => n.key.str

def nextAt (heap : Heap Node) (a : Nat) : Option Nat := (heap.cell a).bind Node.next

def prevAt (heap : Heap Node) (a : Nat) : Option Nat := (heap.cell a).bind Node.prev

/-- From `cache` to `cache'` at most the ends of the list and the links of the nodes were changed.
-/
structure OnlyLinks (cache cache' : Cache) : Prop where
  table : cache'.table = cache.table
  count : cache'.count = cache.count
  capacity : cache'.capacity = cache.capacity
  key : ∀ b, keyAt cache'.heap b = keyAt cache.heap b
  data : ∀ b, dataAt cache'.heap b = dataAt cache.heap b

variable {cache cache' cache'' : Cache} {heap : Heap Node} {a b : Nat}
  {p x : Option Nat} {node : Node} {f : Node → Node}

theorem OnlyLinks.trans (h : OnlyLinks cache cache') (h' : OnlyLinks cache' cache'') :
    OnlyLinks cache cache'' where
  table := h'.table.trans h.table
  count := h'.count.trans h.count
  capacity := h'.capacity.trans h.capacity
  key b := (h'.key b).trans (h.key b)
  data b := (h'.data b).trans (h.data b)

def Alive (heap : Heap Node) (a : Nat) : Prop := (heap.cell a).isSome

theorem alive_iff : Alive heap a ↔ ∃ k, keyAt heap a = some k := by
  simp [Alive, keyAt, isSome_iff_exists]

theorem OnlyLinks.alive (h : OnlyLinks cache cache') (ha : Alive cache.heap a) :
    Alive cache'.heap a := by
  rwa [alive_iff, h.key, ← alive_iff]

theorem Alive.exists_cell (h : Alive heap a) : ∃ node, heap.cell a = some node ∧
    nextAt heap a = node.next ∧ prevAt heap a = node.prev ∧ keyAt heap a = some node.key.str := by
  rcases isSome_iff_exists.1 h with ⟨node, hnode⟩
  exact ⟨node, hnode, by simp [nextAt, hnode], by simp [prevAt, hnode], by simp [keyAt, hnode]⟩

/-! ## Assignments -/

theorem setNode_eq (ha : Alive cache.heap a) (f : Node → Node) :
    setNode cache a f = some { cache with heap := cache.heap.assign (some a) f } := by
  rw [setNode, modify_assign ha]
  rfl

theorem setPtr_eq (hp : ∀ c, p = some c → Alive cache.heap c) (f : Node → Node) :
    setPtr cache p f = some { cache with heap := cache.heap.assign p f } := by
  cases p with
  | none => simp [setPtr]
  | some c => exact setNode_eq (hp c rfl) f

@[simp] theorem alive_assign : Alive (heap.assign p f) a ↔ Alive heap a := by
  simp [Alive]

theorem bind_assign {g : Node → Option Nat} (hg : ∀ n, g (f n) = g n) (p : Option Nat) (b : Nat) :
    ((heap.assign p f).cell b).bind g = (heap.cell b).bind g := by
  by_cases hb : p = some b <;> simp [cell_assign, bind_map, hb, hg]

theorem bind_assign_eq {g : Node → Option Nat} (hg : ∀ n, g (f n) = x)
    (hp : ∀ c, p = some c → Alive heap c) (b : Nat) :
    ((heap.assign p f).cell b).bind g = if p = some b then x else (heap.cell b).bind g := by
  rw [cell_assign, bind_map]
  by_cases hb : p = some b
  · rcases isSome_iff_exists.1 (hp b hb) with ⟨node, hnode⟩
    simp [hb, hnode, hg]
  · simp [hb]

section Fields

variable (heap p x b)

@[simp] theorem keyAt_setNext : keyAt (heap.assign p fun n => { n with next := x }) b =
    keyAt heap b :=
  map_assign (by simp) p b

@[simp] theorem keyAt_setPrev : keyAt (heap.assign p fun n => { n with prev := x }) b =
    keyAt heap b :=
  map_assign (by simp) p b

@[simp] theorem dataAt_setNext : dataAt (heap.assign p fun n => { n with next := x }) b =
    dataAt heap b :=
  map_assign (by simp) p b

@[simp] theorem dataAt_setPrev : dataAt (heap.assign p fun n => { n with prev := x }) b =
    dataAt heap b :=
  map_assign (by simp) p b

@[simp] theorem prevAt_setNext : prevAt (heap.assign p fun n => { n with next := x }) b =
    prevAt heap b :=
  bind_assign (by simp) p b

@[simp] theorem nextAt_setPrev : nextAt (heap.assign p fun n => { n with prev := x }) b =
    nextAt heap b :=
  bind_assign (by simp) p b

end Fields

theorem nextAt_setNext (hp : ∀ c, p = some c → Alive heap c) :
    nextAt (heap.assign p fun n => { n with next := x }) b =
      if p = some b then x else nextAt heap b :=
  bind_assign_eq (by simp) hp b

theorem prevAt_setPrev (hp : ∀ c, p = some c → Alive heap c) :
    prevAt (heap.assign p fun n => { n with prev := x }) b =
      if p = some b then x else prevAt heap b :=
  bind_assign_eq (by simp) hp b

/-! ## The operations on the list -/

theorem addToFront_spec (ha : Alive cache.heap a)
    (hhead : ∀ c, cache.head = some c → Alive cache.heap c) (hne : cache.head ≠ some a) :
    ∃ cache', addToFront cache a = some cache' ∧ OnlyLinks cache cache' ∧ cache'.head = some a ∧
      cache'.tail = cache.tail.or (some a) ∧
      (∀ b, nextAt cache'.heap b = if b = a then cache.head else nextAt cache.heap b) ∧ ∀ b,
      prevAt cache'.heap b =
        if b = a then none else if cache.head = some b then some a else prevAt cache.heap b := by
  have hself : ∀ c, some a = some c → Alive cache.heap c := by
    rintro c ⟨⟩
    exact ha
  refine ⟨{ cache with
      head := some a
      tail := cache.tail.or (some a)
      heap := ((cache.heap.assign (some a) fun n => { n with prev := none }).assign (some a)
        fun n => { n with next := cache.head }).assign cache.head fun n =>
          { n with prev := some a } },
    ?_, ⟨rfl, rfl, rfl, by simp, by simp⟩, rfl, rfl, fun b => ?_, fun b => ?_⟩
  · simp +contextual only [addToFront, setNode_eq, setPtr_eq, ha, alive_assign, bind_eq_bind,
      bind_some, hhead,
      implies_true]
    cases cache.tail <;> simp
  · rw [nextAt_setPrev, nextAt_setNext (by simpa using ha), nextAt_setPrev]
    simp [eq_comm]
  · rw [prevAt_setPrev (by simpa using hhead), prevAt_setNext, prevAt_setPrev hself]
    by_cases hb : b = a
    · simp [hb, hne]
    · simp [hb, Ne.symm hb]

theorem unlink_spec (ha : Alive cache.heap a)
    (hprev : ∀ c, prevAt cache.heap a = some c → Alive cache.heap c ∧ c ≠ a)
    (hnext : ∀ c, nextAt cache.heap a = some c → Alive cache.heap c ∧ c ≠ a) :
    ∃ cache', unlink cache a = some cache' ∧ OnlyLinks cache cache' ∧ cache'.head = cache.head ∧
      cache'.tail = (if cache.tail = some a then prevAt cache.heap a else cache.tail) ∧
        (∀ b, nextAt cache'.heap b =
        if prevAt cache.heap a = some b then nextAt cache.heap a else nextAt cache.heap b) ∧ ∀ b,
          prevAt cache'.heap b =
        if nextAt cache.heap a = some b then prevAt cache.heap a else prevAt cache.heap b := by
  rcases ha.exists_cell with ⟨node, hnode, hn, hp, -⟩
  rw [hp] at hprev ⊢
  rw [hn] at hnext ⊢
  have hprev' : ∀ c, node.prev = some c → Alive cache.heap c := fun c hc => (hprev c hc).1
  have hnext' : ∀ c, node.next = some c → Alive cache.heap c := fun c hc => (hnext c hc).1
  -- the assignments are not to the node itself
  have hselfPrev : node.prev ≠ some a := fun hself => (hprev a hself).2 rfl
  have hselfNext : node.next ≠ some a := fun hself => (hnext a hself).2 rfl
  refine ⟨{ cache with
      tail := if cache.tail = some a then node.prev else cache.tail
      heap := (cache.heap.assign node.prev fun n => { n with next := node.next }).assign node.next
        fun n => { n with prev := node.prev } },
    ?_, ⟨rfl, rfl, rfl, by simp, by simp⟩, rfl, rfl, fun b => ?_, fun b => ?_⟩
  · simp +contextual only [unlink, hnode, setPtr_eq, alive_assign, hprev', hnext',
      bind_eq_bind, bind_some,
      implies_true, assign_of_ne hselfPrev, assign_of_ne hselfNext]
    split <;> rfl
  · rw [nextAt_setPrev, nextAt_setNext hprev']
  · rw [prevAt_setPrev (by simpa using hnext'), prevAt_setNext]

/-- From `cache` to `cache'` the node `a` was moved to the front, before the old head `first`. -/
structure Moved (cache cache' : Cache) (first a : Nat) : Prop where
  links : OnlyLinks cache cache'
  head : cache'.head = some a
  tail : cache'.tail = (if cache.tail = some a then prevAt cache.heap a else cache.tail).or (some a)
  next : ∀ b, nextAt cache'.heap b = if b = a then some first
    else if prevAt cache.heap a = some b then nextAt cache.heap a else nextAt cache.heap b
  prev : ∀ b, prevAt cache'.heap b = if b = a then none else if b = first then some a
    else if nextAt cache.heap a = some b then prevAt cache.heap a else prevAt cache.heap b

theorem moveToFront_spec {first : Nat} (hhead : cache.head = some first) (hne : first ≠ a)
    (hfirst : Alive cache.heap first) (ha : Alive cache.heap a)
    (hprev : ∀ c, prevAt cache.heap a = some c → Alive cache.heap c ∧ c ≠ a)
    (hnext : ∀ c, nextAt cache.heap a = some c → Alive cache.heap c ∧ c ≠ a) :
    ∃ cache', moveToFront cache a = some cache' ∧ Moved cache cache' first a := by
  have hother : cache.head ≠ some a := by
    rw [hhead]
    simpa using hne
  rcases unlink_spec ha hprev hnext with ⟨c1, hc1, h1, hhead1, htail1, hnext1, hprev1⟩
  rw [hhead] at hhead1
  have halive : ∀ c, c1.head = some c → Alive c1.heap c := by
    intro c hc
    rw [hhead1] at hc
    cases hc
    exact h1.alive hfirst
  rcases addToFront_spec (h1.alive ha) halive (by rw [hhead1]; simpa using hne) with
    ⟨c2, hc2, h2, hhead2, htail2, hnext2, hprev2⟩
  refine ⟨c2, ?_, h1.trans h2, hhead2, by rw [htail2, htail1], fun b => ?_, fun b => ?_⟩
  · rw [moveToFront, if_neg hother, hc1, bind_eq_bind, bind_some, hc2]
  · rw [hnext2, hnext1, hhead1]
  · rw [hprev2, hprev1, hhead1]
    simp [eq_comm]

theorem removeLru_spec {lru before : Nat} (htail : cache.tail = some lru)
    (hlru : Alive cache.heap lru)
    (hprev : prevAt cache.heap lru = some before) (hbefore : Alive cache.heap before) :
    ∃ cache', removeLru cache = some (cache', some lru) ∧ OnlyLinks cache cache' ∧
      cache'.head = cache.head ∧ cache'.tail = some before ∧
      (∀ b, nextAt cache'.heap b = if b = before then none else nextAt cache.heap b) ∧
      ∀ b, prevAt cache'.heap b = prevAt cache.heap b := by
  let heap := cache.heap.assign (some before) fun n => { n with next := none }
  rcases hlru.exists_cell with ⟨node, hnode, -, hp, -⟩
  rcases (show Alive heap lru from alive_assign.2 hlru).exists_cell with ⟨node1, hnode1, -, hp1, -⟩
  refine ⟨{ cache with tail := some before, heap }, ?_,
    ⟨rfl, rfl, rfl, by simp [heap], by simp [heap]⟩, rfl, rfl,
    fun b => ?_, by simp [heap]⟩
  · simp [removeLru, htail, hnode, ← hp, hprev, setNode_eq hbefore, heap, hnode1, ← hp1]
  · rw [nextAt_setNext (by rintro c ⟨⟩; exact hbefore)]
    simp [eq_comm]

end SystemsLab.StringLru
