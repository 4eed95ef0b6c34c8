import SystemsLab.Data.ArrayNode
import SystemsLab.Data.CallSequence
import SystemsLab.Data.LevelRep

/-!
# The B-tree of `b-tree-dynamic-insertion.c`, and the split of a full node

Nodes are cells of a heap with the two arrays of the source; a split leaves the moved entries behind
in the old arrays, as the source does.  Every function fails (`none`) on an array index out of range
and on a `NULL` or unallocated pointer.  No node is ever freed, so a new node gets the first unused
address.

`Shows n leaf keys kids` reads a node: the keys below `count` and, in an internal node, the children
up to `count`.  `splitChild_spec` is the split in terms of trees: the full subtree is cut around its
middle key, which moves up into the parent.
-/

namespace SystemsLab.BTree

open CallSequence Option Heap

abbrev Ptr := Nat

def MAX : Nat := 3

structure BTreeNode where
  keys : CArray Int MAX
  count : Nat
  child : CArray (Option Ptr) (MAX + 1)
  isLeaf : Bool

/-- `createNode`; the keys are not initialised there. -/
def createNode (isLeaf : Bool) : BTreeNode := ⟨CArray.fill 0, 0, CArray.fill none, isLeaf⟩

/-- `if (i < root->count && key == root->keys[i])` -/
def keyAt (n : BTreeNode) (i : Nat) (key : Int) : Option Bool :=
  if i < n.count then do
    let x ← n.keys.get i
    some (key = x)
  else some false

def searchKey (heap : Heap BTreeNode) (key : Int) : Nat → Option Ptr → Option Bool
  | 0, _ => none
  | _ + 1, none => some false
  | fuel + 1, some root => do
      let n ← heap.cell root
      let i ← n.keys.scanUp key n.count 0
      let found ← keyAt n i key
      if found then some true
      else if n.isLeaf then some false
      else do
        let c ← n.child.get i
        searchKey heap key fuel c

/-- The subtrees that `splitChild` moves from a full node to the new one. -/
def rightSubtrees (full new : BTreeNode) : Option (CArray (Option Ptr) (MAX + 1)) :=
  if full.isLeaf then some new.child
  else full.child.copyFrom (MAX / 2 + 1) (MAX - MAX / 2 - 1 + 1) 0 new.child

/-- The right half of a full node, as `splitChild` fills it. -/
def rightHalf (full : BTreeNode) : Option BTreeNode := do
  let mid := MAX / 2
  let new := createNode full.isLeaf
  let keys ← full.keys.copyFrom (mid + 1) (MAX - mid - 1) 0 new.keys
  let child ← rightSubtrees full new
  some { new with keys := keys, child := child, count := MAX - mid - 1 }

/-- The lines of `splitChild` that make room in the parent. -/
def makeRoom (parent : BTreeNode) (idx : Nat) (key : Int) (newNode : Ptr) : Option BTreeNode := do
  let child ← parent.child.shiftUp (idx + 1) (parent.count - idx)
  let child ← child.set (idx + 1) (some newNode)
  let keys ← parent.keys.shiftUp idx (parent.count - idx)
  let keys ← keys.set idx key
  some { parent with keys := keys, child := child, count := parent.count + 1 }

def splitChild (heap : Heap BTreeNode) (parent : Ptr) (idx : Nat) (fullChild : Ptr) :
    Option (Heap BTreeNode) := do
  let mid := MAX / 2
  let full ← heap.cell fullChild
  let new ← rightHalf full
  let newNode := heap.brk
  let heap := heap.alloc newNode new
  let heap ← heap.modify fullChild fun n => { n with count := mid }
  let n ← heap.cell parent
  -- the middle key lies behind the new count and is still there
  let key ← full.keys.get mid
  let n ← makeRoom n idx key newNode
  heap.modify parent fun _ => n

def insertIntoLeaf (n : BTreeNode) (key : Int) : Option BTreeNode := do
  let (keys, pos) ← CArray.shiftWhile key n.count n.keys
  let keys ← keys.set pos key
  some { n with keys := keys, count := n.count + 1 }

/-- `node->child[i]`, dereferenced. -/
def childAt (heap : Heap BTreeNode) (node : Ptr) (i : Nat) : Option Ptr := do
  let n ← heap.cell node
  let c ← n.child.get i
  c

/-- `if (key > node->keys[i]) i++;` -/
def chooseHalf (heap : Heap BTreeNode) (node : Ptr) (i : Nat) (key : Int) : Option Nat := do
  let n ← heap.cell node
  let k ← n.keys.get i
  some (if key > k then i + 1 else i)

def insertWhenNonFull (key : Int) : Nat → Heap BTreeNode → Ptr → Option (Heap BTreeNode)
  | 0, _, _ => none
  | fuel + 1, heap, node => do
      let n ← heap.cell node
      if n.isLeaf then do
        let n ← insertIntoLeaf n key
        heap.modify node fun _ => n
      else do
        let i ← n.keys.scanDown key n.count
        let c ← childAt heap node i
        let cn ← heap.cell c
        if cn.count = MAX then do
          -- split on the way down, so that there is always room for the key that moves up
          let heap ← splitChild heap node i c
          let i ← chooseHalf heap node i key
          let c ← childAt heap node i
          insertWhenNonFull key fuel heap c
        else insertWhenNonFull key fuel heap c

structure Tree where
  heap : Heap BTreeNode
  root : Option Ptr

def emptyTree : Tree := ⟨Heap.empty, none⟩

def firstNode (key : Int) : Option BTreeNode := do
  let n := createNode true
  let keys ← n.keys.set 0 key
  some { n with keys := keys, count := 1 }

/-- A root above a full root: `newRoot->child[0] = root`. -/
def rootAbove (root : Ptr) : Option BTreeNode := do
  let n := createNode false
  let child ← n.child.set 0 (some root)
  some { n with child := child }

def insert (t : Tree) (key : Int) : Option Tree :=
  match t.root with
  | none => do
      let n ← firstNode key
      some ⟨t.heap.alloc t.heap.brk n, some t.heap.brk⟩
  | some root => do
      let n ← t.heap.cell root
      if n.count = MAX then do
        -- the only place where the tree becomes higher
        let new ← rootAbove root
        let newRoot := t.heap.brk
        let heap := t.heap.alloc newRoot new
        let heap ← splitChild heap newRoot 0 root
        let i ← chooseHalf heap newRoot 0 key
        let c ← childAt heap newRoot i
        let heap ← insertWhenNonFull key heap.brk heap c
        some ⟨heap, some newRoot⟩
      else do
        let heap ← insertWhenNonFull key t.heap.brk t.heap root
        some ⟨heap, some root⟩

def run (keys : List Int) : Option Tree := runCalls insert emptyTree keys

/-! ## Nodes -/

open CArray LevelTree List

structure Shows (n : BTreeNode) (leaf : Bool) (ks : List Int) (kids : List Ptr) : Prop where
  isLeaf : n.isLeaf = leaf
  filled : Filled n.keys n.child n.count leaf ks kids

theorem Shows.count_eq {n : BTreeNode} {leaf : Bool} {ks : List Int} {kids : List Ptr}
    (h : Shows n leaf ks kids) : n.count = ks.length :=
  h.filled.count_eq

/-! ## The parts of `splitChild` -/

variable {n : BTreeNode} {leaf : Bool} {ks K J : List Int} {kids kA kB : List Ptr} {c : Ptr}

theorem rightHalf_spec (h : Shows n leaf ks kids) (hfull : ks.length = MAX) :
    ∃ new, rightHalf n = some new ∧ Shows new leaf (ks.drop (MAX / 2 + 1))
      (kids.drop (MAX / 2 + 1)) := by
  have hr : MAX / 2 + 1 + (MAX - MAX / 2 - 1) = ks.length := by
    rw [hfull]
    rfl
  cases leaf with
  | true =>
    rcases exists_copy n.keys (MAX / 2 + 1) (MAX - MAX / 2 - 1) (createNode true).keys
      (by decide) (by decide) with ⟨keys, hkeys, hfront⟩
    have hfilled : Filled keys (createNode true).child (MAX - MAX / 2 - 1) true
        (ks.drop (MAX / 2 + 1)) (kids.drop (MAX / 2 + 1)) := by
      refine ⟨by decide, ?_, nofun, nofun⟩
      rw [hfront, hr, ← h.count_eq, h.filled.keys_eq]
    refine ⟨⟨keys, MAX - MAX / 2 - 1, (createNode true).child, true⟩, ?_, rfl, hfilled⟩
    simp only [rightHalf, rightSubtrees, hkeys, h.isLeaf]
    rfl
  | false =>
    rcases h.filled.copy hr (createNode false).keys (createNode false).child
      with ⟨keys, child, hkeys, hchild, hfilled⟩
    refine ⟨⟨keys, MAX - MAX / 2 - 1, child, false⟩, ?_, rfl, hfilled⟩
    simp only [rightHalf, rightSubtrees, hkeys, hchild, h.isLeaf, bind_eq_bind]
    rfl

theorem makeRoom_spec (h : Shows n false (K ++ J) (kA ++ c :: kB)) (hK : kA.length = K.length)
    (hroom : (K ++ J).length < MAX) (m : Int) (new : Ptr) :
    ∃ n', makeRoom n K.length m new = some n' ∧ Shows n' false (K ++ m :: J)
      (kA ++ c :: new :: kB) := by
  rcases h.filled.insertAt hK hroom (Nat.succ_lt_succ hroom) m new
    with ⟨child1, child2, keys1, keys2, hshift, hset, hshift', hset', hfilled⟩
  refine ⟨⟨keys2, n.count + 1, child2, n.isLeaf⟩, ?_, h.isLeaf, hfilled⟩
  simp [makeRoom, hshift, hset, hshift', hset']

theorem insertIntoLeaf_spec (h : Shows n true ks kids) (hroom : ks.length < MAX)
    (hsorted : ks.Pairwise (· ≤ ·)) (key : Int) :
    ∃ n' ks', insertIntoLeaf n key = some n' ∧ Shows n' true ks' kids ∧
      ks'.Pairwise (· ≤ ·) ∧ ks'.Perm (key :: ks) := by
  rcases h.filled.insertSorted hroom hsorted key
    with ⟨keys1, pos, keys2, hshift, hset, hfilled, hlow, hhigh⟩
  refine ⟨⟨keys2, n.count + 1, n.child, n.isLeaf⟩, _, ?_, ⟨h.isLeaf, hfilled⟩,
    sorted_insert hsorted hlow fun x hx => (hhigh x hx).le, perm_insert ks pos key⟩
  simp [insertIntoLeaf, hshift, hset]

/-! ## The split in the heap -/

variable {H : Heap BTreeNode} {p b : Ptr} {idx : Nat} {m : Int} {full new n' : BTreeNode}

theorem splitChild_cells (hfull : H.cell b = some full) (hp : H.cell p = some n) (hpb : p ≠ b)
    (hnew : rightHalf full = some new) (hm : full.keys.get (MAX / 2) = some m)
    (hroom : makeRoom n idx m H.brk = some n') :
    ∃ H', splitChild H p idx b = some H' ∧ H'.brk = H.brk + 1 ∧ H'.cell p = some n' ∧
      H'.cell b = some { full with count := MAX / 2 } ∧ H'.cell H.brk = some new ∧
      ∀ a, a ≠ p → a ≠ b → a ≠ H.brk → H'.cell a = H.cell a := by
  have hb_lt := lt_brk hfull
  have hp_lt := lt_brk hp
  have hb1 : (H.alloc H.brk new).cell b = some full := by rw [alloc_brk_of_ne hb_lt.ne, hfull]
  have hp2 : ((H.alloc H.brk new).adjust b fun n => { n with count := MAX / 2 }).cell p =
    some n := by
    rw [adjust_of_ne hpb, alloc_brk_of_ne hp_lt.ne, hp]
  refine ⟨(((H.alloc H.brk new).adjust b fun n => { n with count := MAX / 2 }).adjust p fun _ =>
    n'),
    ?_, ?_, adjust_self hp2, ?_, ?_, ?_⟩
  · simp [splitChild, hfull, hnew, modify_eq hb1, hp2, hm, hroom, modify_eq hp2]
  · simp
  · rw [adjust_of_ne hpb.symm, adjust_self hb1]
  · rw [adjust_of_ne hp_lt.ne', adjust_of_ne hb_lt.ne', alloc_brk_self]
  · intro a hap hab ha
    rw [adjust_of_ne hap, adjust_of_ne hab, alloc_brk_of_ne ha]

variable {h : Nat} {a : Ptr} {A B : List (LevelTree Int h)} {t : LevelTree Int h}

theorem splitChild_spec (hf : Footed Shows H (branch a (K ++ J) (A ++ t :: B)))
    (hK : A.length = K.length) (hroom : (K ++ J).length < MAX) (hfull : t.keys.length = MAX) :
    ∃ H' m, splitChild H a K.length t.addr = some H' ∧ t.keys[MAX / 2]? = some m ∧
      Footed Shows H' (branch a (K ++ m :: J) (A ++ takeHalf (MAX / 2) t ::
        dropHalf H.brk (MAX / 2) t :: B)) ∧
      Heap.Grows H H' (branch a (K ++ J) (A ++ t :: B)).addrs (branch a (K ++ m :: J)
        (A ++ takeHalf (MAX / 2) t :: dropHalf H.brk (MAX / 2) t :: B)).addrs := by
  have ht : Footed Shows H t := hf.kid
  have hat : a ∉ t.addrs := hf.addr_notMem_kid
  rcases rep_branch.1 hf.rep with ⟨⟨n, hn, hshows⟩, -⟩
  rcases ht.rep.root with ⟨full, hfull_cell, hfull_shows⟩
  have hmid : MAX / 2 < t.keys.length := by
    rw [hfull]
    decide
  have hm : t.keys[MAX / 2]? = some t.keys[MAX / 2] := getElem?_eq_getElem hmid
  rcases rightHalf_spec hfull_shows hfull with ⟨new, hnew, hnew_shows⟩
  rw [map_append, map_cons] at hshows
  rcases makeRoom_spec hshows (by rw [length_map, hK]) hroom t.keys[MAX / 2] H.brk
    with ⟨n', hroom', hn'_shows⟩
  have hne : a ≠ t.addr := fun heq => hat (heq ▸ addr_mem_addrs t)
  rcases splitChild_cells hfull_cell hn hne hnew (hfull_shows.filled.key hm) hroom'
    with ⟨H', hsplit, hbrk, hcell_a, hcell_t, hcell_new, hother⟩
  -- the halves lie in the cells of the subtree and in the new one
  have hperm := addrs_halves t H.brk (c := MAX / 2)
  have hlt : ∀ b ∈ t.addrs, b ≠ H.brk := fun b hb => (ht.lt_brk hb).ne
  have hrest : ∀ b ∈ t.addrs, b ≠ t.addr → H'.cell b = H.cell b := by
    intro b hb hbt
    exact hother b (fun heq => hat (heq ▸ hb)) hbt (hlt b hb)
  have hleft : Rep Shows H' (takeHalf (MAX / 2) t) :=
    Rep.takeHalf ht hcell_t ⟨hfull_shows.isLeaf, hfull_shows.filled.take hmid.le⟩ hrest
  have hright : Rep Shows H' (dropHalf H.brk (MAX / 2) t) :=
    Rep.dropHalf ht hcell_new hnew_shows hrest
  refine ⟨H', t.keys[MAX / 2], hsplit, hm, ?_⟩
  apply hf.graft (T := [takeHalf (MAX / 2) t, dropHalf H.brk (MAX / 2) t]) hcell_a
  · simpa using hn'_shows
  · refine ⟨by omega, ?_, ?_⟩
    · intro b hb hblt
      rw [mem_cons, not_or] at hb
      exact hother b hb.1 (fun heq => hb.2 (heq ▸ addr_mem_addrs t)) hblt.ne
    · intro b hb
      simp only [map_cons, map_nil, flatten_cons, flatten_nil, append_nil, mem_cons,
        hperm.mem_iff] at hb ⊢
      rcases hb with rfl | rfl | hb
      · exact .inl (.inl rfl)
      · exact .inr le_rfl
      · exact .inl (.inr hb)
  · intro k hk
    simp only [mem_cons, not_mem_nil, or_false] at hk
    rcases hk with rfl | rfl
    · exact hleft
    · exact hright
  · have ha_lt := lt_brk hn
    simp only [map_cons, map_nil, flatten_cons, flatten_nil, append_nil]
    refine nodup_cons.2 ⟨?_, hperm.nodup_iff.2 (nodup_cons.2 ⟨?_, ht.nodup⟩)⟩
    · rw [hperm.mem_iff, mem_cons, not_or]
      exact ⟨ha_lt.ne, hat⟩
    · intro hmem
      exact hlt _ hmem rfl

end SystemsLab.BTree
