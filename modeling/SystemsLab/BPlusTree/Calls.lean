import SystemsLab.BPlusTree.Insert

/-!
# The leaf chain and the search after any insertions

`Stored s guide ls` is the state of a tree with the leaves `ls` and the keys `guide` in its root, if
it has one.  While every inserted key is new in the leaf chain, the tree stays in such states.

- A chain of at most `MAX` keys is complete; with the first split a key is lost, and keys keep being
  lost (`leaf_chain_complete_iff`).
- The search goes left of a key of the root, but the key itself is the first one on its right, so
  exactly the leaf keys that are not in the root are found (`search_finds_iff`).
-/

namespace SystemsLab.BPlusTree

open CArray Chain CallSequence List Option Heap

/-! ## Reading a tree -/

/-- The keys of the internal nodes below a node. -/
def internalKeysFrom (heap : Heap BPlusTreeNode) : Nat → Ptr → Option (List Int)
  | 0, _ => none
  | fuel + 1, node => do
      let n ← heap.cell node
      if n.isleaf then some []
      else do
        let parts ← (n.child.front (n.count + 1)).mapM fun c => c.bind (internalKeysFrom heap fuel)
        some (n.keys.front n.count ++ parts.flatten)

def internalKeys (t : Tree) : Option (List Int) := t.root.bind (internalKeysFrom t.heap t.heap.brk)

def keysAt (H : Heap BPlusTreeNode) (a : Ptr) : List Int :=
  match H.cell a with
  | none => []
  | some n => n.keys.front n.count

variable {H : Heap BPlusTreeNode} {l : Leaf Int} {ls : List (Leaf Int)} {a : Ptr} {guide : List Int}
  {fuel : Nat}

theorem keysAt_row (hcells : ∀ l ∈ ls, LeafAt H l) :
    ((ls.map Leaf.addr).map (keysAt H)).flatten = chainKeys ls := by
  rw [List.map_map]
  refine congrArg flatten (map_congr_left fun l hl => ?_)
  rcases hcells l hl with ⟨n, hn, hshows⟩
  simp [keysAt, hn, hshows.filled.keys_eq]

theorem firstLeaf_leaf (hl : LeafAt H l) (fuel : Nat) :
    firstLeaf H (fuel + 1) (some l.addr) = some l.addr := by
  rcases hl with ⟨n, hn, hshows⟩
  simp [firstLeaf, hn, hshows.isleaf]

theorem firstLeaf_root (hT : Rooted H a guide (l :: ls)) (fuel : Nat) :
    firstLeaf H (fuel + 2) (some a) = some l.addr := by
  rcases hT.root with ⟨n, hn, hshows⟩
  have hchild : n.child.get 0 = some (some l.addr) := hshows.filled.kid rfl (Nat.zero_le _)
  have hfirst := firstLeaf_leaf (hT.row.cells l mem_cons_self) fuel
  rw [firstLeaf]
  simp [hn, hshows.isleaf, hchild, hfirst]

theorem walkLeaves_spec {l : List Ptr} (hlinked : Linked (nextLeaf H) l none)
    (hfuel : l.length ≤ fuel) :
    walkLeaves H fuel l.head? = some ((l.map (keysAt H)).flatten) := by
  induction l generalizing fuel with
  | nil => cases fuel <;> rfl
  | cons a l ih =>
    rcases fuel with _ | fuel
    · simp at hfuel
    rcases hlinked with ⟨hlink, hrest⟩
    rcases map_eq_some_iff.1 hlink with ⟨n, hn, hnext'⟩
    have htail := ih hrest (by simpa using hfuel)
    simp [walkLeaves, hn, hnext', htail, keysAt]

theorem findKey_spec (keys : CArray Int (MAX + 1)) (key : Int) (r j : Nat) (hr : j + r ≤ MAX + 1) :
    findKey key keys r j = some (decide (key ∈ (keys.front (j + r)).drop j)) := by
  induction r generalizing j with
  | zero =>
    have hnil : (keys.front j).drop j = [] := by rw [drop_eq_nil_iff, length_front keys (by omega)]
    simp [findKey, hnil]
  | succ r ih =>
    rcases exists_get keys (i := j) (by omega) with ⟨x, hx⟩
    have hcons : (keys.front (j + (r + 1))).drop j = x ::
      (keys.front (j + 1 + r)).drop (j + 1) := by
      rw [drop_eq_getElem?_toList_append, getElem?_front _ (by omega), hx, Nat.add_right_comm]
      rfl
    have hrec := ih (j + 1) (by omega)
    by_cases hxk : x = key
    · simp [findKey, hx, hxk, hcons]
    · have hkx : key ≠ x := fun heq => hxk heq.symm
      simp [findKey, hx, hxk, hkx, hcons, hrec]

theorem internalKeysFrom_leaf (hl : LeafAt H l) :
    internalKeysFrom H (fuel + 1) l.addr = some [] := by
  rcases hl with ⟨n, hn, hshows⟩
  simp [internalKeysFrom, hn, hshows.isleaf]

theorem internalKeysFrom_root (hT : Rooted H a guide ls) :
    internalKeysFrom H (fuel + 2) a = some guide := by
  rcases hT.root with ⟨n, hn, hshows⟩
  have hparts : (n.child.front (n.count + 1)).mapM
      (fun c => c.bind (internalKeysFrom H (fuel + 1))) = some (ls.map fun _ => []) := by
    rw [hshows.filled.kids_eq rfl, List.map_map]
    apply LevelTree.mapM_some
    intro l hl
    exact internalKeysFrom_leaf (hT.row.cells l hl)
  rw [internalKeysFrom]
  simp [hn, hshows.isleaf, hparts, hshows.filled.keys_eq]

theorem searchFrom_leaf (fuel : Nat) (hl : LeafAt H l) (hsorted : l.keys.Pairwise (· < ·))
    (key : Int) :
    searchFrom H key (fuel + 1) (some l.addr) = some (decide (key ∈ l.keys)) := by
  rcases hl with ⟨n, hn, hshows⟩
  rcases hshows.filled.scanUp (hsorted.imp le_of_lt) key with ⟨pos, hscan, -⟩
  have hfind := findKey_spec n.keys key n.count 0 (by simpa using hshows.filled.le_cap)
  rw [zero_add, hshows.filled.keys_eq] at hfind
  simp [searchFrom, hn, hscan, hshows.isleaf, hfind]

theorem searchFrom_root (hT : Rooted H a guide ls) (key : Int) :
    searchFrom H key (fuel + 2) (some a) = some (decide (key ∈ chainKeys ls ∧ key ∉ guide)) := by
  rcases hT.exists_place key
    with ⟨n, K, J, A, l, B, c, hn, hshows, rfl, rfl, hA, hlow, hhigh, hscan, hchild⟩
  have hguides := hT.guides
  have hsorted := hT.row.sorted
  rw [chainKeys] at hsorted ⊢
  rw [map_append, map_cons] at hguides hsorted ⊢
  have hlen : (A.map Leaf.keys).length = K.length := by rw [length_map, hA]
  have hlB : (l.keys ++ (B.map Leaf.keys).flatten).Pairwise (· < ·) := by
    rw [flatten_append] at hsorted
    exact (pairwise_append.1 hsorted).2.1
  have hleaf := searchFrom_leaf fuel (hT.row.cells l (by simp))
    (pairwise_append.1 hlB).1 key
  have hsame : (key ∈ (A.map Leaf.keys ++ l.keys :: B.map Leaf.keys).flatten ∧ key ∉ K ++ J) ↔
      key ∈ l.keys := by
    by_cases hin : key ∈ J
    · -- a key of the root: the search goes left of it, where all keys are smaller
      have hback := (Guides.sublist_of_heads ((Guides.split hlen).1 hguides).2).subset hin
      refine iff_of_false (fun h => h.2 (mem_append_right _ hin)) fun hmem => ?_
      exact ((pairwise_append.1 hlB).2.2 key hmem key hback).false
    · have hhigh' : ∀ k ∈ J, key < k := by
        intro k hk
        exact lt_of_le_of_ne (hhigh k hk) fun heq => hin (heq ▸ hk)
      have hp : Place key K J (A.map Leaf.keys) l.keys (B.map Leaf.keys) :=
        ⟨hlen, hlow, hhigh', hguides, hsorted⟩
      have hno : key ∉ K ++ J := by
        rw [mem_append, not_or]
        exact ⟨fun hk => (hlow key hk).false, hin⟩
      rw [hp.mem_flatten_iff, and_iff_left hno]
  rw [searchFrom]
  simp only [hn, hscan, hshows.isleaf, hchild, bind_eq_bind, bind_some, Bool.false_eq_true,
    if_false, hsame, hleaf]

/-! ## States -/

/-- The tree has the leaves `ls`, and a root with the keys `guide` if it is not a single leaf. -/
inductive Stored (s : Tree) : List Int → List (Leaf Int) → Prop
  | leaf (l : Leaf Int) : s.root = some l.addr → Row s.heap [l] → Stored s [] [l]
  | root (a : Ptr) (guide : List Int) (ls : List (Leaf Int)) :
      s.root = some a → Rooted s.heap a guide ls → Stored s guide ls

variable {s s' : Tree} {key : Int}

theorem Stored.row (hs : Stored s guide ls) : Row s.heap ls := by
  cases hs with
  | leaf l hroot hrow => exact hrow
  | root a guide ls hroot hT => exact hT.row

theorem exists_brk_leaf (hl : LeafAt H l) : ∃ fuel, H.brk = fuel + 1 :=
  Nat.exists_eq_add_one.2 (Nat.zero_lt_of_lt hl.lt_brk)

/-- The root and the first leaf are two nodes. -/
theorem exists_brk_root (hT : Rooted H a guide (l :: ls)) : ∃ fuel, H.brk = fuel + 2 := by
  rcases hT.root with ⟨n, hn, -⟩
  have hlt := lt_brk hn
  have hlt' := (hT.row.cells l mem_cons_self).lt_brk
  have hne : a ≠ l.addr := fun heq => hT.apart (by simp [heq])
  rcases Nat.lt_or_gt_of_ne hne with h | h <;> exact ⟨H.brk - 2, by omega⟩

theorem Rooted.exists_cons (hT : Rooted H a guide ls) : ∃ l ls', ls = l :: ls' := by
  cases ls with
  | nil => cases hT.length
  | cons l ls' => exact ⟨l, ls', rfl⟩

theorem printLeaves_spec (hs : Stored s guide ls) : printLeaves s = some (chainKeys ls) := by
  have hrow := hs.row
  have hlen : (ls.map Leaf.addr).length ≤ s.heap.brk := by
    apply length_le_brk hrow.nodup
    intro b hb
    rcases List.mem_map.1 hb with ⟨l, hl, rfl⟩
    rcases hrow.cells l hl with ⟨n, hn, -⟩
    exact ⟨n, hn⟩
  have hwalk := walkLeaves_spec hrow.linked hlen
  rw [keysAt_row hrow.cells] at hwalk
  cases hs with
  | leaf l hroot _ =>
    have hl := hrow.cells l mem_cons_self
    rcases exists_brk_leaf hl with ⟨fuel, hfuel⟩
    have hfirst := firstLeaf_leaf hl fuel
    rw [← hfuel] at hfirst
    rw [map_singleton, head?_cons] at hwalk
    simp [printLeaves, hroot, hfirst, hwalk]
  | root a guide ls hroot hT =>
    rcases hT.exists_cons with ⟨l, ls', rfl⟩
    rcases exists_brk_root hT with ⟨fuel, hfuel⟩
    have hfirst := firstLeaf_root hT fuel
    rw [← hfuel] at hfirst
    rw [map_cons, head?_cons] at hwalk
    simp [printLeaves, hroot, hfirst, hwalk]

theorem internalKeys_spec (hs : Stored s guide ls) : internalKeys s = some guide := by
  cases hs with
  | leaf l hroot hrow =>
    have hl := hrow.cells l mem_cons_self
    rcases exists_brk_leaf hl with ⟨fuel, hfuel⟩
    rw [internalKeys, hroot, hfuel]
    exact internalKeysFrom_leaf hl
  | root a guide ls hroot hT =>
    rcases hT.exists_cons with ⟨l, ls', rfl⟩
    rcases exists_brk_root hT with ⟨fuel, hfuel⟩
    rw [internalKeys, hroot, hfuel]
    exact internalKeysFrom_root hT

theorem search_spec (hs : Stored s guide ls) (key : Int) :
    search s key = some (decide (key ∈ chainKeys ls ∧ key ∉ guide)) := by
  cases hs with
  | leaf l hroot hrow =>
    have hl := hrow.cells l mem_cons_self
    have hkeys : chainKeys [l] = l.keys := by simp [chainKeys]
    rcases exists_brk_leaf hl with ⟨fuel, hfuel⟩
    rw [search, hroot, hfuel, searchFrom_leaf _ hl (hkeys ▸ hrow.sorted), hkeys]
    simp
  | root a guide ls hroot hT =>
    rcases hT.exists_cons with ⟨l, ls', rfl⟩
    rcases exists_brk_root hT with ⟨fuel, hfuel⟩
    rw [search, hroot, hfuel]
    exact searchFrom_root hT key

/-- The first key makes a tree of one leaf. -/
theorem insertKey_first (hroot : s.root = none) (key : Int) :
    ∃ s' a, insertKey s key = some s' ∧ s'.root = some a ∧ Row s'.heap [⟨a, [key]⟩] := by
  have hempty : Shows (createNode true) true [] [] := ⟨rfl, Nat.zero_le _, rfl, nofun, nofun⟩
  rcases insertIntoLeaf_spec hempty (Nat.zero_le _) Pairwise.nil key
    with ⟨n, P, Q, hinsert, hPQ, -, -, hshows, hnext⟩
  obtain ⟨rfl, rfl⟩ := append_eq_nil_iff.1 hPQ.symm
  have hcell := alloc_brk_self s.heap n
  have hlink : nextLeaf (s.heap.alloc s.heap.brk n) s.heap.brk = some none := by
    rw [nextLeaf_eq hcell, hnext]
    rfl
  refine ⟨⟨s.heap.alloc s.heap.brk n, some s.heap.brk⟩, s.heap.brk, ?_, rfl, ?_, nodup_singleton _,
    ?_, ⟨hlink, trivial⟩, pairwise_singleton _ _⟩
  · simp [insertKey, hroot, hinsert]
  · intro l hl
    rw [mem_singleton.1 hl]
    exact ⟨n, hcell, hshows⟩
  · intro l hl
    rw [mem_singleton.1 hl]
    simp [MAX]

theorem rootAbove_spec (promoted : Int) (root newChild : Ptr) :
    ∃ n, rootAbove promoted root newChild = some n ∧ Shows n false [promoted] [root, newChild] := by
  rcases exists_set (createNode false : BPlusTreeNode).keys (i := 0) (by decide) promoted
    with ⟨keys, hset, hget⟩
  rcases exists_set (createNode false : BPlusTreeNode).child (i := 0) (by decide) (some root)
    with ⟨child1, hset1, hget1⟩
  rcases exists_set child1 (i := 1) (by decide) (some newChild) with ⟨child2, hset2, hget2⟩
  have hkeys : keys.front 1 = [promoted] := front_one (by decide) (by rw [hget, if_pos rfl])
  have hchild : child2.front 2 = [some root, some newChild] := by
    refine front_eq rfl (by decide) fun j hj => ?_
    rcases (by omega : j = 0 ∨ j = 1) with rfl | rfl
    · rw [hget2, if_neg (by decide), hget1, if_pos rfl]
      rfl
    · rw [hget2, if_pos rfl]
      rfl
  have hone : 1 ≤ MAX + 1 := by decide
  refine ⟨⟨keys, child2, 1, false, none⟩, ?_, rfl, hone, hkeys, fun _ => by simp [MAX],
    fun _ => hchild⟩
  simp only [rootAbove, hset, hset1, hset2, bind_eq_bind, bind_some]
  rfl

/-- A single leaf was split: the two leaves get a root. -/
theorem growRoot_split {H' : Heap BPlusTreeNode} {m : Int} {l' l'' : Leaf Int}
    (hrow : Row H' [l', l'']) (haddr : l'.addr = l.addr) (hhead : l''.keys.head? = some m) :
    ∃ s' a, growRoot l.addr (H', some (m, l''.addr)) = some s' ∧ s'.root = some a ∧
      Rooted s'.heap a [m] [l', l''] := by
  rcases rootAbove_spec m l.addr l''.addr with ⟨n, hn, hshows⟩
  have hlt : ∀ b ∈ [l', l''].map Leaf.addr, b ≠ H'.brk := by
    intro b hb
    rcases List.mem_map.1 hb with ⟨u, hu, rfl⟩
    exact (hrow.cells u hu).lt_brk.ne
  refine ⟨⟨H'.alloc H'.brk n, some H'.brk⟩, H'.brk, by simp [growRoot, hn], rfl,
    hrow.congr fun b hb => alloc_brk_of_ne (hlt b hb),
    ⟨n, alloc_brk_self H' n, by simpa [haddr] using hshows⟩, fun hmem => hlt _ hmem rfl, rfl, ?_⟩
  simp [Guides, hhead]

/-- A new key at a single leaf: with the first split a key is lost. -/
theorem insertKey_leaf (hroot : s.root = some l.addr) (hrow : Row s.heap [l])
    (hkey : key ∉ l.keys) :
    ∃ s' guide' ls', insertKey s key = some s' ∧ Stored s' guide' ls' ∧
      Adds key l.keys (chainKeys ls') ∧
      ((∃ l', s'.root = some l'.addr ∧ ls' = [l'] ∧ l'.keys.Perm (key :: l.keys)) ∨
        (∃ a, s'.root = some a ∧ Rooted s'.heap a guide' ls' ∧ l.keys.length = MAX ∧
          (chainKeys ls').length = MAX)) := by
  have hl := hrow.cells l mem_cons_self
  have hsorted := hrow.sorted
  rw [chainKeys, map_singleton, flatten_singleton] at hsorted
  rcases exists_brk_leaf hl with ⟨fuel, hfuel⟩
  rcases insert_leaf hl (hrow.loaded l mem_cons_self) hsorted hkey fuel
    with ⟨H', r, U, hrun, hgrew, hins, hcount⟩
  rw [← hfuel] at hrun
  have hrow' : Row H' U := by
    have hreplaced := Row.replace (A := []) (B := []) hrow hins (by simpa using hins.adds.sorted)
    simpa using hreplaced
  cases hgrew with
  | kept l' haddr =>
    rcases hcount with ⟨-, hperm⟩ | ⟨hne, -⟩
    · refine ⟨⟨H', some l.addr⟩, [], [l'], by simp [insertKey, hroot, hrun, growRoot],
        Stored.leaf l' (by rw [haddr]) hrow', hins.adds,
        .inl ⟨l', by rw [haddr], rfl, by simpa [chainKeys] using hperm⟩⟩
    · exact absurd rfl hne
  | split l' l'' m haddr hhead =>
    rcases hcount with ⟨hnone, -⟩ | ⟨-, hfull, hlen⟩
    · cases hnone
    · rcases growRoot_split hrow' haddr hhead with ⟨s', a, hgrow, hroot', hT⟩
      exact ⟨s', [m], [l', l''], by simp [insertKey, hroot, hrun, hgrow],
        Stored.root a _ _ hroot' hT, hins.adds, .inr ⟨a, hroot', hT, hfull, hlen⟩⟩

/-- A new key in a tree with a root, unless the root is too small for it. -/
theorem insertKey_root (hroot : s.root = some a) (hT : Rooted s.heap a guide ls)
    (hkey : key ∉ chainKeys ls) (hinsert : insertKey s key = some s') :
    ∃ guide' ls', s'.root = some a ∧ Rooted s'.heap a guide' ls' ∧
      Adds key (chainKeys ls) (chainKeys ls') := by
  rw [insertKey, hroot] at hinsert
  rcases bind_eq_some_iff.1 hinsert with ⟨⟨H', r⟩, hrun, hgrow⟩
  rcases insert_root hT hkey hrun with ⟨rfl, guide', ls', hT', hadds⟩
  cases hgrow
  exact ⟨guide', ls', rfl, hT', hadds⟩

/-! ## Runs -/

def fresh (s : Tree) (key : Int) : Bool := key ∉ (printLeaves s).getD []

/-- A tree that is not empty stays in the states of `Stored`. -/
theorem stored_step (s : Tree) (key : Int) (s' : Tree) (hs : ∃ guide ls, Stored s guide ls)
    (hfresh : fresh s key) (hinsert : insertKey s key = some s') :
    ∃ guide ls, Stored s' guide ls := by
  rcases hs with ⟨guide, ls, hstored⟩
  rw [fresh, decide_eq_true_eq, printLeaves_spec hstored] at hfresh
  cases hstored with
  | leaf l hroot hrow =>
    rcases insertKey_leaf hroot hrow (by simpa [chainKeys] using hfresh)
      with ⟨s1, guide', ls', hinsert1, hstored', -⟩
    cases hinsert1.symm.trans hinsert
    exact ⟨guide', ls', hstored'⟩
  | root a guide ls hroot hT =>
    rcases insertKey_root hroot hT hfresh hinsert with ⟨guide', ls', hroot', hT', -⟩
    exact ⟨guide', ls', Stored.root a guide' ls' hroot' hT'⟩

theorem stored_of_run {keys : List Int} (hne : keys ≠ []) (hrun : run keys = some s)
    (hfresh : guarded insertKey fresh emptyTree keys) : ∃ guide ls, Stored s guide ls := by
  cases keys with
  | nil => exact absurd rfl hne
  | cons key keys =>
    rcases insertKey_first (s := emptyTree) rfl key with ⟨s1, a, hinsert, hroot, hrow⟩
    rw [run, runCalls, hinsert] at hrun
    exact runCalls_kept_guarded (P := fun s => ∃ guide ls, Stored s guide ls) stored_step
      ⟨[], _, Stored.leaf _ hroot hrow⟩ (guarded_cons hfresh hinsert) hrun

/-- In a run that stays inside the nodes, and while every inserted key is new in the chain, the
search finds exactly the keys of the chain that are not keys of an internal node. -/
theorem search_finds_iff (keys : List Int) (hne : keys ≠ []) (s : Tree) (hrun : run keys = some s)
    (hfresh : guarded insertKey fresh emptyTree keys) :
    ∃ chain guide, printLeaves s = some chain ∧ internalKeys s = some guide ∧
      ∀ k, search s k = some (decide (k ∈ chain ∧ k ∉ guide)) := by
  rcases stored_of_run hne hrun hfresh with ⟨guide, ls, hs⟩
  exact ⟨chainKeys ls, guide, printLeaves_spec hs, internalKeys_spec hs, search_spec hs⟩

/-- Ten keys in the order of `main`, where leaves have been split several times. -/
theorem search_finds_iff_main :
    ∃ s chain guide, run [10, 20, 5, 6, 12, 30, 7, 17, 25, 40] = some s ∧
      printLeaves s = some chain ∧ internalKeys s = some guide ∧
      ∀ k, search s k = some (decide (k ∈ chain ∧ k ∉ guide)) := by
  obtain ⟨s, hrun⟩ : ∃ s, run [10, 20, 5, 6, 12, 30, 7, 17, 25, 40] = some s :=
    isSome_iff_exists.1 (by decide +kernel)
  rcases search_finds_iff _ (by decide) s hrun (by decide +kernel) with ⟨chain, guide, hfound⟩
  exact ⟨s, chain, guide, hrun, hfound⟩

/-- The key `3` is in the chain, as the first key of its leaf, and is not found. -/
theorem search_misses_separator : (run [1, 2, 3, 4]).bind printLeaves = some [1, 2, 3] ∧
      (run [1, 2, 3, 4]).bind (fun s => search s 3) = some false := by
  decide +kernel

/-- The chain of a run of distinct keys, with the count of the keys that went in. -/
def Counted (s : Tree) (made rest : List Int) : Prop :=
  (made ++ rest).Nodup ∧ ((s.root = none ∧ made = []) ∨
    (∃ l : Leaf Int, s.root = some l.addr ∧ Row s.heap [l] ∧ l.keys.Perm made) ∨
      ∃ a guide ls, s.root = some a ∧ Rooted s.heap a guide ls ∧ (∀ x ∈ chainKeys ls, x ∈ made) ∧
        MAX < made.length ∧ (chainKeys ls).length < made.length)

theorem Counted.notMem {made rest : List Int} (hs : Counted s made (key :: rest)) : key ∉ made :=
  fun hmem => (nodup_append.1 hs.1).2.2 key hmem key mem_cons_self rfl

theorem counted_step (s : Tree) (made : List Int) (key : Int) (rest : List Int) (s' : Tree)
    (hs : Counted s made (key :: rest)) (hinsert : insertKey s key = some s') :
    Counted s' (made ++ [key]) rest := by
  have hnew := hs.notMem
  rcases hs with ⟨hnodup, hstate⟩
  refine ⟨by simpa using hnodup, .inr ?_⟩
  have hsubset : ∀ {L L' : List Int}, (∀ x ∈ L, x ∈ made) → Adds key L L' →
      ∀ x ∈ L', x ∈ made ++ [key] := by
    intro L L' hsub hadds x hx
    rcases hadds.subset x hx with rfl | hx
    · simp
    · exact mem_append_left _ (hsub x hx)
  rcases hstate with ⟨hroot, rfl⟩ | ⟨l, hroot, hrow, hperm⟩ |
    ⟨a, guide, ls, hroot, hT, hsub, hmax, hlt⟩
  · rcases insertKey_first hroot key with ⟨s1, a, hinsert1, hroot', hrow⟩
    cases hinsert1.symm.trans hinsert
    exact .inl ⟨_, hroot', hrow, Perm.refl _⟩
  · rcases insertKey_leaf hroot hrow (fun hmem => hnew (hperm.mem_iff.1 hmem))
      with ⟨s1, guide', ls', hinsert1, hstored, hadds, hcount⟩
    cases hinsert1.symm.trans hinsert
    rcases hcount with ⟨l', hroot', rfl, hperm'⟩ | ⟨a, hroot', hT, hfull, hlen⟩
    · refine .inl ⟨l', hroot', hstored.row, ?_⟩
      calc
        l'.keys.Perm (key :: l.keys) := hperm'
        Perm _ (key :: made) := hperm.cons key
        Perm _ (made ++ [key]) := (perm_append_singleton key made).symm
    · have hmade : made.length = MAX := by rw [← hperm.length_eq, hfull]
      have hsub : ∀ x ∈ l.keys, x ∈ made := fun x hx => hperm.mem_iff.1 hx
      refine .inr ⟨a, guide', ls', hroot', hT, hsubset hsub hadds, ?_, ?_⟩ <;>
      · rw [length_append, length_singleton]
        omega
  · rcases insertKey_root hroot hT (fun hmem => hnew (hsub key hmem)) hinsert
      with ⟨guide', ls', hroot', hT', hadds⟩
    have hlen := hadds.length_le
    refine .inr ⟨a, guide', ls', hroot', hT', hsubset hsub hadds, ?_, ?_⟩ <;>
    · rw [length_append, length_singleton]
      omega

/-- While the tree is one leaf no insertion fails. -/
theorem exists_insertKey (s : Tree) (made : List Int) (key : Int) (rest : List Int)
    (hs : Counted s made (key :: rest) ∧ made.length + (key :: rest).length ≤ MAX) :
    ∃ s', insertKey s key = some s' ∧ Counted s' (made ++ [key]) rest ∧
      (made ++ [key]).length + rest.length ≤ MAX := by
  rcases hs with ⟨hcounted, hlen⟩
  have hinsert : ∃ s', insertKey s key = some s' := by
    rcases hcounted.2 with ⟨hroot, -⟩ | ⟨l, hroot, hrow, hperm⟩ | ⟨a, guide, ls, -, -, -, hmax, -⟩
    · rcases insertKey_first hroot key with ⟨s', -, hs', -⟩
      exact ⟨s', hs'⟩
    · have hkey : key ∉ l.keys := fun hmem => hcounted.notMem (hperm.mem_iff.1 hmem)
      rcases insertKey_leaf hroot hrow hkey with ⟨s', -, -, hs', -⟩
      exact ⟨s', hs'⟩
    · omega
  rcases hinsert with ⟨s', hs'⟩
  refine ⟨s', hs', counted_step s made key rest s' hcounted hs', ?_⟩
  simp only [length_append, length_cons, length_nil] at hlen ⊢
  omega

/-- The leaf chain of distinct keys is complete exactly as long as they fit into one leaf: such a
run does not fail, and in every run that does not fail the chain can be printed and is complete
exactly then. -/
theorem leaf_chain_complete_iff (keys : List Int) (hne : keys ≠ []) (hnodup : keys.Nodup) :
    (keys.length ≤ MAX → ∃ s, run keys = some s) ∧
      ∀ s, run keys = some s → ∃ chain, printLeaves s = some chain ∧
        (chain = keys.mergeSort (· ≤ ·) ↔ keys.length ≤ MAX) := by
  have hstart : Counted emptyTree [] keys := ⟨hnodup, .inl ⟨rfl, rfl⟩⟩
  refine ⟨fun hle => ?_, fun s hrun => ?_⟩
  · rcases runCalls_along
      (R := fun s made rest => Counted s made rest ∧ made.length + rest.length ≤ MAX)
      exists_insertKey keys ⟨hstart, by simpa using hle⟩ with ⟨s, hrun, -⟩
    exact ⟨s, hrun⟩
  · rcases runCalls_kept_along counted_step hstart hrun with
      ⟨-, ⟨-, hnil⟩ | ⟨l, hroot, hrow, hperm⟩ | ⟨a, guide, ls, hroot, hT, -, hmax, hlt⟩⟩
    · exact absurd hnil hne
    · have hkeys : chainKeys [l] = l.keys := by simp [chainKeys]
      have hle := (hrow.loaded l mem_cons_self).2
      have hsorted := hrow.sorted
      rw [hkeys] at hsorted
      rw [hperm.length_eq] at hle
      refine ⟨l.keys, hkeys ▸ printLeaves_spec (Stored.leaf l hroot hrow), ?_⟩
      exact iff_of_true (eq_mergeSort (hsorted.imp le_of_lt) hperm) hle
    · refine ⟨_, printLeaves_spec (Stored.root a guide ls hroot hT),
        iff_of_false ?_ (not_le.2 hmax)⟩
      intro heq
      rw [heq, length_mergeSort] at hlt
      exact lt_irrefl _ hlt

theorem leaf_chain_complete_three : ∃ s chain, run [5, 1, 3] = some s ∧ printLeaves s = some chain ∧
      chain = ([5, 1, 3] : List Int).mergeSort (· ≤ ·) := by
  rcases leaf_chain_complete_iff [5, 1, 3] (by decide) (by decide) with ⟨hruns, hchain⟩
  rcases hruns (by decide) with ⟨s, hrun⟩
  rcases hchain s hrun with ⟨chain, hprint, hiff⟩
  exact ⟨s, chain, hrun, hprint, hiff.2 (by decide)⟩

/-- The fourth key of a leaf is dropped by its split. -/
theorem leaf_chain_drops_fourth :
    ([1, 2, 3, 4] : List Int).Nodup ∧ (run [1, 2, 3, 4]).bind printLeaves = some [1, 2, 3] := by
  decide +kernel

end SystemsLab.BPlusTree
