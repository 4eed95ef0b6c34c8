import SystemsLab.Data.ArrayNode
import SystemsLab.Data.CallSequence
import SystemsLab.Data.Chain
import SystemsLab.Data.Heap
import SystemsLab.Data.LevelTree

/-!
# The B+ tree of `b-plus-tree.c`, its nodes and their splits

A full node is filled with one entry more before it is split.  The source writes its key to
`keys[MAX]`, one place behind the array; with `room = 1` the array of the keys has this place, and
with `room = 0` it is as declared.  The child of the entry goes to `child[MAX+1]`, where the node
keeps `count` and `isleaf`: no such place is there, so an insertion into a full internal node fails.
All other indices out of range, and `NULL` or unallocated pointers, make a function fail too.  No
node is ever freed, so a new node gets the first unused address.

`insert` returns `NULL` and clears `grew`, or returns a new node with the promoted key and sets it;
the two outcomes are `none` and `some (promoted, newChild)`.

`Shows n leaf keys kids` reads a node.  A leaf is split by `splitLeaf` after it was overfilled: the
left leaf keeps the keys before the middle, and the right one gets those behind it up to `keys[MAX -
1]`; the last of the `MAX + 1` keys is in neither (`rightLeaf_spec`).  An internal node takes a new
child while it has fewer than `MAX` keys (`insertIntoInternal_spec`) and none when it is full
(`insertIntoInternal_full`), so `splitInternal` is never reached.
-/

namespace SystemsLab.BPlusTree

open CallSequence

abbrev Ptr := Nat

def MAX : Nat := 3

structure NodeOf (room : Nat) where
  -- the slot behind the declared ones is written just before a split
  keys : CArray Int (MAX + room)
  child : CArray (Option Ptr) (MAX + 1)
  count : Nat
  isleaf : Bool
  next : Option Ptr

/-- `BPlusTreeNode`, with the room that the insertion needs. -/
abbrev BPlusTreeNode := NodeOf 1

variable {room : Nat}

/-- `createNode`; the keys are not initialised there. -/
def createNode (isLeaf : Bool) : NodeOf room :=
  ⟨CArray.fill 0, CArray.fill none, 0, isLeaf, none⟩

def insertIntoLeaf (leaf : NodeOf room) (key : Int) : Option (NodeOf room) := do
  let (keys, pos) ← CArray.shiftWhile key leaf.count leaf.keys
  let keys ← keys.set pos key
  some { leaf with keys := keys, count := leaf.count + 1 }

/-- The leaf that `splitLeaf` creates; the loop stops before `keys[MAX]`. -/
def rightLeaf (leaf : NodeOf room) : Option (NodeOf room) := do
  let mid := (MAX + 1) / 2
  let newLeaf := createNode true
  -- the bound is `MAX`, although the leaf has `MAX + 1` keys here
  let keys ← leaf.keys.copyFrom mid (MAX - mid) 0 newLeaf.keys
  some { newLeaf with keys := keys, count := MAX - mid, next := leaf.next }

def splitLeaf (heap : Heap (NodeOf room)) (leaf : Ptr) :
    Option (Heap (NodeOf room) × Int × Ptr) := do
  let n ← heap.cell leaf
  let new ← rightLeaf n
  let newLeaf := heap.brk
  let heap := heap.alloc newLeaf new
  let heap ← heap.modify leaf fun n => { n with count := (MAX + 1) / 2, next := some newLeaf }
  let newKey ← new.keys.get 0
  some (heap, newKey, newLeaf)

/-- The loop of `insertIntoInternal`, which moves keys and children together; `k` is `i + 1`. -/
def shiftBoth (key : Int) : Nat → CArray Int (MAX + room) → CArray (Option Ptr) (MAX + 1) →
    Option (CArray Int (MAX + room) × CArray (Option Ptr) (MAX + 1) × Nat)
  | 0, keys, child => some (keys, child, 0)
  | k + 1, keys, child => do
      let x ← keys.get k
      if key < x then do
        let keys ← keys.set (k + 1) x
        let c ← child.get (k + 1)
        let child ← child.set (k + 2) c
        shiftBoth key k keys child
      else some (keys, child, k + 1)

def insertIntoInternal (internal : NodeOf room) (key : Int) (child : Ptr) :
    Option (NodeOf room) := do
  let (keys, childs, pos) ← shiftBoth key internal.count internal.keys internal.child
  let keys ← keys.set pos key
  let childs ← childs.set (pos + 1) (some child)
  some { internal with keys := keys, child := childs, count := internal.count + 1 }

/-- The node that `splitInternal` creates. -/
def rightInternal (internal : NodeOf room) : Option (NodeOf room) := do
  let mid := internal.count / 2
  let newInternal := createNode false
  let moved := internal.count - (mid + 1)
  let keys ← internal.keys.copyFrom (mid + 1) moved 0 newInternal.keys
  let child ← internal.child.copyFrom (mid + 1) moved 0 newInternal.child
  let last ← internal.child.get internal.count
  let child ← child.set moved last
  some { newInternal with keys := keys, child := child, count := moved }

def splitInternal (heap : Heap (NodeOf room)) (internal : Ptr) :
    Option (Heap (NodeOf room) × Int × Ptr) := do
  let n ← heap.cell internal
  let new ← rightInternal n
  let newInternal := heap.brk
  let heap := heap.alloc newInternal new
  let newKey ← n.keys.get (n.count / 2)
  let heap ← heap.modify internal fun n => { n with count := n.count / 2 }
  some (heap, newKey, newInternal)

def insertAtLeaf (heap : Heap (NodeOf room)) (root : Ptr) (n : NodeOf room) (key : Int) :
    Option (Heap (NodeOf room) × Option (Int × Ptr)) := do
  let n' ← insertIntoLeaf n key
  let heap ← heap.modify root fun _ => n'
  -- the test is on the count before the insertion
  if n.count < MAX then some (heap, none)
  else do
    let (heap, promoted) ← splitLeaf heap root
    some (heap, some promoted)

def insertGrown (heap : Heap (NodeOf room)) (root : Ptr) (newKey : Int) (newChild : Ptr) :
    Option (Heap (NodeOf room) × Option (Int × Ptr)) := do
  let n ← heap.cell root
  let n' ← insertIntoInternal n newKey newChild
  let heap ← heap.modify root fun _ => n'
  if n.count < MAX then some (heap, none)
  else do
    let (heap, promoted) ← splitInternal heap root
    some (heap, some promoted)

/-- `insert` on return from the child. -/
def afterChild (root : Ptr) (r : Heap (NodeOf room) × Option (Int × Ptr)) :
    Option (Heap (NodeOf room) × Option (Int × Ptr)) :=
  match r.2 with
  | none => some (r.1, none)
  | some (newKey, newChild) => insertGrown r.1 root newKey newChild

def insert (key : Int) : Nat → Heap (NodeOf room) → Ptr →
    Option (Heap (NodeOf room) × Option (Int × Ptr))
  | 0, _, _ => none
  | fuel + 1, heap, root => do
      let n ← heap.cell root
      if n.isleaf then insertAtLeaf heap root n key
      else do
        let i ← n.keys.scanUp key n.count 0
        let c ← n.child.get i
        let c ← c
        let r ← insert key fuel heap c
        afterChild root r

/-- The tree that `main` holds in `root`, with its memory. -/
structure TreeOf (room : Nat) where
  heap : Heap (NodeOf room)
  root : Option Ptr

abbrev Tree := TreeOf 1

def emptyTree : TreeOf room := ⟨Heap.empty, none⟩

def rootAbove (promoted : Int) (root newChild : Ptr) : Option (NodeOf room) := do
  let n := createNode false
  let keys ← n.keys.set 0 promoted
  let child ← n.child.set 0 (some root)
  let child ← child.set 1 (some newChild)
  some { n with keys := keys, child := child, count := 1 }

def growRoot (root : Ptr) (r : Heap (NodeOf room) × Option (Int × Ptr)) : Option (TreeOf room) :=
  match r.2 with
  | none => some ⟨r.1, some root⟩
  | some (promoted, newChild) => do
      let n ← rootAbove promoted root newChild
      some ⟨r.1.alloc r.1.brk n, some r.1.brk⟩

def insertKey (t : TreeOf room) (key : Int) : Option (TreeOf room) :=
  match t.root with
  | none => do
      let n ← insertIntoLeaf (createNode true) key
      some ⟨t.heap.alloc t.heap.brk n, some t.heap.brk⟩
  | some root => do
      let r ← insert key t.heap.brk t.heap root
      growRoot root r

/-- The loop over the keys of a leaf in `search`, with `r` keys still to compare. -/
def findKey (key : Int) (keys : CArray Int (MAX + 1)) : Nat → Nat → Option Bool
  | 0, _ => some false
  | r + 1, j => do
      let x ← keys.get j
      if x = key then some true else findKey key keys r (j + 1)

def searchFrom (heap : Heap BPlusTreeNode) (key : Int) : Nat → Option Ptr → Option Bool
  | 0, _ => none
  | _ + 1, none => none
  | fuel + 1, some root => do
      let n ← heap.cell root
      let i ← n.keys.scanUp key n.count 0
      if n.isleaf then findKey key n.keys n.count 0
      else do
        -- for a key equal to `keys[i]` this is the child on the left of it
        let c ← n.child.get i
        searchFrom heap key fuel c

def search (t : Tree) (key : Int) : Option Bool := searchFrom t.heap key t.heap.brk t.root

/-- `while (!root->isleaf) root = root->child[0];` -/
def firstLeaf (heap : Heap BPlusTreeNode) : Nat → Option Ptr → Option Ptr
  | 0, _ => none
  | _ + 1, none => none
  | fuel + 1, some root => do
      let n ← heap.cell root
      if n.isleaf then some root
      else do
        let c ← n.child.get 0
        firstLeaf heap fuel c

/-- The second loop of `printLeaves`: the keys that are printed from a leaf on. -/
def walkLeaves (heap : Heap BPlusTreeNode) : Nat → Option Ptr → Option (List Int)
  | _, none => some []
  | 0, some _ => none
  | fuel + 1, some leaf => do
      let n ← heap.cell leaf
      let rest ← walkLeaves heap fuel n.next
      some (n.keys.front n.count ++ rest)

def printLeaves (t : Tree) : Option (List Int) := do
  let leaf ← firstLeaf t.heap t.heap.brk t.root
  walkLeaves t.heap t.heap.brk (some leaf)

def run (keys : List Int) : Option Tree := runCalls insertKey emptyTree keys

/-! ## Nodes -/

open CArray Option List

structure Shows (n : BPlusTreeNode) (leaf : Bool) (ks : List Int) (kids : List Ptr) : Prop where
  isleaf : n.isleaf = leaf
  filled : Filled n.keys n.child n.count leaf ks kids

theorem Shows.count_eq {n : BPlusTreeNode} {leaf : Bool} {ks : List Int} {kids : List Ptr}
    (h : Shows n leaf ks kids) : n.count = ks.length :=
  h.filled.count_eq

def nextLeaf (H : Heap BPlusTreeNode) (a : Ptr) : Option (Option Ptr) :=
  (H.cell a).map NodeOf.next

theorem nextLeaf_eq {H : Heap BPlusTreeNode} {a : Ptr} {n : BPlusTreeNode}
    (hn : H.cell a = some n) : nextLeaf H a = some n.next := by
  rw [nextLeaf, hn]
  rfl

theorem nextLeaf_congr {H H' : Heap BPlusTreeNode} {a : Ptr} (h : H'.cell a = H.cell a) :
    nextLeaf H' a = nextLeaf H a := by
  rw [nextLeaf, h]
  rfl

variable {n : BPlusTreeNode} {ks K J : List Int} {kids kA kB : List Ptr} {key s : Int} {c : Ptr}

theorem insertIntoLeaf_spec (h : Shows n true ks kids) (hle : ks.length ≤ MAX)
    (hsorted : ks.Pairwise (· ≤ ·)) (key : Int) :
    ∃ n' P Q, insertIntoLeaf n key = some n' ∧ ks = P ++ Q ∧ (∀ x ∈ P, x ≤ key) ∧
      (∀ x ∈ Q, key < x) ∧ Shows n' true (P ++ key :: Q) kids ∧ n'.next = n.next := by
  rcases h.filled.insertSorted (Nat.lt_succ_of_le hle) hsorted key
    with ⟨keys1, pos, keys2, hshift, hset, hfilled, hlow, hhigh⟩
  refine ⟨⟨keys2, n.child, n.count + 1, n.isleaf, n.next⟩, ks.take pos, ks.drop pos, ?_,
    (take_append_drop pos ks).symm, hlow, hhigh, ⟨h.isleaf, hfilled⟩, rfl⟩
  simp [insertIntoLeaf, hshift, hset]

/-- The right leaf starts at the middle key and ends before the last one. -/
theorem rightLeaf_spec (h : Shows n true ks kids) (hfull : ks.length = MAX + 1) :
    ∃ new, rightLeaf n = some new ∧ Shows new true ((ks.take MAX).drop ((MAX + 1) / 2)) [] ∧
      new.next = n.next := by
  rcases exists_copy n.keys ((MAX + 1) / 2) (MAX - (MAX + 1) / 2)
    (createNode true : BPlusTreeNode).keys (by decide) (by decide) with ⟨keys, hkeys, hfront⟩
  have hfilled : Filled keys (createNode true : BPlusTreeNode).child (MAX - (MAX + 1) / 2) true
      ((ks.take MAX).drop ((MAX + 1) / 2)) [] := by
    refine ⟨by decide, ?_, nofun, nofun⟩
    have hmax : (MAX + 1) / 2 + (MAX - (MAX + 1) / 2) = MAX := by decide
    have hcount : n.keys.front (MAX + 1) = ks := by rw [← h.filled.keys_eq, h.count_eq, hfull]
    rw [hfront, hmax, ← take_front n.keys (Nat.le_succ MAX), hcount]
  refine ⟨⟨keys, (createNode true : BPlusTreeNode).child, MAX - (MAX + 1) / 2, true, n.next⟩, ?_,
    ⟨rfl, hfilled⟩, rfl⟩
  simp only [rightLeaf, hkeys]
  rfl

theorem shiftBoth_spec {k pos : Nat} {keys keys' : CArray Int (MAX + 1)}
    {child child' : CArray (Option Ptr) (MAX + 1)}
    (hkeys : shiftWhile key k keys = some (keys', pos))
    (hchild : child.shiftUp (pos + 1) (k - pos) = some child') :
    shiftBoth key k keys child = some (keys', child', pos) := by
  induction k generalizing keys child with
  | zero =>
    cases hkeys
    cases hchild
    rfl
  | succ k ih =>
    simp only [shiftWhile, bind_eq_bind, bind_eq_some_iff] at hkeys
    rcases hkeys with ⟨x, hx, hkeys⟩
    by_cases hlt : key < x
    · rw [if_pos hlt] at hkeys
      rcases bind_eq_some_iff.1 hkeys with ⟨keys1, hset, hrest⟩
      have hpos : pos ≤ k := shiftWhile_le hrest
      rw [show k + 1 - pos = (k - pos) + 1 by omega, shiftUp, bind_eq_bind,
        show pos + 1 + (k - pos) = k + 1 by omega] at hchild
      rcases bind_eq_some_iff.1 hchild with ⟨c, hc, hchild⟩
      rcases bind_eq_some_iff.1 hchild with ⟨child1, hset', hchild⟩
      simp only [shiftBoth, hx, if_pos hlt, hset, hc, hset', bind_eq_bind, bind_some]
      exact ih hrest hchild
    · rw [if_neg hlt] at hkeys
      cases hkeys
      rw [Nat.sub_self, shiftUp] at hchild
      cases hchild
      simp [shiftBoth, hx, if_neg hlt]

theorem cut_unique {pos : Nat} (hpos : pos ≤ (K ++ J).length)
    (hlow : ∀ x ∈ (K ++ J).take pos, x ≤ s) (hhigh : ∀ x ∈ (K ++ J).drop pos, s < x)
    (hK : ∀ x ∈ K, x ≤ s) (hJ : ∀ x ∈ J, s < x) : pos = K.length := by
  rcases lt_trichotomy pos K.length with hlt | heq | hgt
  · have hmem : K[pos] ∈ (K ++ J).drop pos := by
      rw [drop_append_of_le_length hlt.le]
      exact mem_append_left _ (mem_drop_iff_getElem.2 ⟨0, by omega, by simp⟩)
    exact absurd (hhigh _ hmem) (not_lt.2 (hK _ (getElem_mem hlt)))
  · exact heq
  · cases J with
    | nil =>
      rw [append_nil] at hpos
      omega
    | cons j J =>
      have hmem : j ∈ (K ++ j :: J).take pos := by
        rw [take_append, show pos - K.length = (pos - K.length - 1) + 1 by omega]
        simp
      exact absurd (hJ j mem_cons_self) (not_lt.2 (hlow j hmem))

theorem insertIntoInternal_spec (h : Shows n false (K ++ J) (kA ++ c :: kB))
    (hK : kA.length = K.length) (hroom : (K ++ J).length < MAX)
    (hsorted : (K ++ J).Pairwise (· ≤ ·)) (hlow : ∀ k ∈ K, k ≤ s)
    (hhigh : ∀ k ∈ J, s < k) (new : Ptr) :
    ∃ n', insertIntoInternal n s new = some n' ∧ Shows n' false (K ++ s :: J)
      (kA ++ c :: new :: kB) := by
  have hcount := h.count_eq
  have hfront := h.filled.keys_eq
  rcases h.filled.insertAt hK (Nat.lt_succ_of_lt hroom) (Nat.succ_lt_succ hroom) s new
    with ⟨child1, child2, keys1, keys2, hshift, hset, hshift', hset', hfilled⟩
  rcases shiftWhile_spec s n.count n.keys (by omega) with ⟨pos, keys', hscan, hmove, hwhile⟩
  rcases scanDown_front s h.filled.le_cap (by rwa [hfront]) with ⟨pos', hscan', hpos, hl, hh⟩
  rw [hscan] at hscan'
  cases hscan'
  rw [hfront] at hl hh
  have hplace : pos = K.length := cut_unique (hcount ▸ hpos) hl hh hlow hhigh
  subst hplace
  rw [hmove] at hshift'
  cases hshift'
  refine ⟨⟨keys2, child2, n.count + 1, n.isleaf, n.next⟩, ?_, h.isleaf, hfilled⟩
  simp [insertIntoInternal, shiftBoth_spec hwhile hshift, hset, hset']

theorem shiftBoth_full (key : Int) (keys : CArray Int (MAX + 1))
    (child : CArray (Option Ptr) (MAX + 1)) :
    shiftBoth key MAX keys child = none ∨
      shiftBoth key MAX keys child = some (keys, child, MAX) := by
  rcases exists_get keys (i := 2) (by decide) with ⟨x, hx⟩
  change shiftBoth key (2 + 1) keys child = none ∨
    shiftBoth key (2 + 1) keys child = some (keys, child, 2 + 1)
  rw [shiftBoth, hx, bind_eq_bind, bind_some]
  split
  · -- the last child is moved behind the array
    refine .inl ?_
    cases child.get (2 + 1) with
    | none => rfl
    | some c => rfl
  · exact .inr rfl

/-- One child too many has no place. -/
theorem insertIntoInternal_full (h : n.count = MAX) (new : Ptr) :
    insertIntoInternal n s new = none := by
  have hout : ∀ v, n.child.set (MAX + 1) v = none := fun v => dif_neg (lt_irrefl _)
  rcases shiftBoth_full s n.keys n.child with hshift | hshift
  · simp [insertIntoInternal, h, hshift]
  · simp [insertIntoInternal, h, hshift, hout]

/-! ## The splits in the heap -/

variable {H : Heap BPlusTreeNode} {a : Ptr} {new : BPlusTreeNode}

theorem splitLeaf_cells (hn : H.cell a = some n) (hnew : rightLeaf n = some new)
    (hs : new.keys.get 0 = some s) :
    ∃ H', splitLeaf H a = some (H', s, H.brk) ∧ H'.brk = H.brk + 1 ∧
      H'.cell a = some { n with count := (MAX + 1) / 2, next := some H.brk } ∧
      H'.cell H.brk = some new ∧ ∀ b, b ≠ a → b ≠ H.brk → H'.cell b = H.cell b := by
  rcases Heap.alloc_modify hn new fun n =>
    { n with count := (MAX + 1) / 2, next := some H.brk } with ⟨H', hmodify, hcells⟩
  refine ⟨H', ?_, hcells⟩
  simp [splitLeaf, hn, hnew, hmodify, hs]

end SystemsLab.BPlusTree
