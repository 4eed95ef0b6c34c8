import SystemsLab.BTree.Insert

/-!
# Content, search and shape after any insertions

The statements are about the heap: `inorder` reads the keys of a tree in order through its pointers,
and `Shaped` says what the nodes are.  Both are obtained from the tree that `Stores` provides.
-/

namespace SystemsLab.BTree

open CArray LevelTree CallSequence List Option

/-! ## Reading a tree -/

/-- The keys below a node, those of the node between those of its children. -/
def inorderFrom (heap : Heap BTreeNode) : Nat → Ptr → Option (List Int)
  | 0, _ => none
  | fuel + 1, node => do
      let n ← heap.cell node
      if n.isLeaf then some (n.keys.front n.count)
      else do
        let parts ← (n.child.front (n.count + 1)).mapM fun c => c.bind (inorderFrom heap fuel)
        some (weave (n.keys.front n.count) parts)

def inorder (t : Tree) : Option (List Int) :=
  match t.root with
  | none => some []
  | some root => inorderFrom t.heap t.heap.brk root

def search (t : Tree) (key : Int) : Option Bool := searchKey t.heap key (t.heap.brk + 1) t.root

/-- The subtree at `node` has all leaves `d` levels below it, between one and `MAX` keys in each
node, and in an internal node with `c` keys the children `0`, …, `c`. -/
def Shaped (heap : Heap BTreeNode) : Nat → Ptr → Prop
  | 0, node => ∃ n, heap.cell node = some n ∧ n.isLeaf = true ∧ 1 ≤ n.count ∧ n.count ≤ MAX
  | d + 1, node => ∃ n, heap.cell node = some n ∧ n.isLeaf = false ∧ 1 ≤ n.count ∧ n.count ≤ MAX ∧
      ∀ i, i ≤ n.count → ∃ c, n.child.get i = some (some c) ∧ Shaped heap d c

variable {H : Heap BTreeNode} {h : Nat} {t : LevelTree Int h} {key : Int}

theorem inorderFrom_spec (hrep : Rep Shows H t) {fuel : Nat} (hfuel : h < fuel) :
    inorderFrom H fuel t.addr = some t.inorder := by
  induction h generalizing fuel with
  | zero =>
    rcases fuel with _ | fuel
    · omega
    rcases exists_leaf t with ⟨a, ks, rfl⟩
    rcases rep_leaf.1 hrep with ⟨n, hn, hshows⟩
    simp [inorderFrom, hn, hshows.isLeaf, hshows.filled.keys_eq]
  | succ h ih =>
    rcases fuel with _ | fuel
    · omega
    rcases exists_branch t with ⟨a, ks, kids, rfl⟩
    rcases rep_branch.1 hrep with ⟨⟨n, hn, hshows⟩, hkids⟩
    have hparts : (n.child.front (n.count + 1)).mapM (fun c => c.bind (inorderFrom H fuel)) =
        some (kids.map LevelTree.inorder) := by
      rw [hshows.filled.kids_eq rfl, List.map_map]
      apply LevelTree.mapM_some
      intro k hk
      exact ih (hkids k hk) (by omega)
    simp [inorderFrom, hn, hshows.isLeaf, hparts, hshows.filled.keys_eq]

theorem keyAt_spec {n : BTreeNode} {leaf : Bool} {K J : List Int} {kids : List Ptr}
    (hshows : Shows n leaf (K ++ J) kids) (hsorted : J.Pairwise (· ≤ ·))
    (hhigh : ∀ k ∈ J, key ≤ k) : keyAt n K.length key = some (decide (key ∈ J)) := by
  have hcount := hshows.count_eq
  cases J with
  | nil =>
    simp [keyAt, hcount]
  | cons j J =>
    have hget : n.keys.get K.length = some j := hshows.filled.key (by simp)
    have hlt : K.length < n.count := by
      rw [hcount]
      simp
    -- the scan stopped at `j`, and the keys behind are larger still
    have hfirst : key = j ↔ key ∈ j :: J := by
      constructor
      · rintro rfl
        exact mem_cons_self
      · intro hmem
        rcases mem_cons.1 hmem with rfl | hmem
        · rfl
        · exact le_antisymm (hhigh j mem_cons_self) ((pairwise_cons.1 hsorted).1 key hmem)
    simp only [keyAt, if_pos hlt, hget, hfirst, bind_eq_bind, bind_some]

theorem searchKey_spec (hrep : Rep Shows H t) (hl : Loaded 1 MAX t)
    (hsorted : t.inorder.Pairwise (· ≤ ·)) (key : Int) {fuel : Nat} (hfuel : h < fuel) :
    searchKey H key fuel (some t.addr) = some (decide (key ∈ t.inorder)) := by
  induction h generalizing fuel with
  | zero =>
    rcases fuel with _ | fuel
    · omega
    rcases exists_leaf t with ⟨a, ks, rfl⟩
    rcases rep_leaf.1 hrep with ⟨n, hn, hshows⟩
    rcases hshows.filled.scanUp hsorted key with ⟨pos, hscan, hpos, hlow, hhigh⟩
    rw [← take_append_drop pos ks] at hshows hsorted
    have hkey := keyAt_spec hshows (pairwise_append.1 hsorted).2.1 hhigh
    rw [length_take_of_le hpos] at hkey
    have hmem : key ∈ ks ↔ key ∈ ks.drop pos := by
      rw [← take_append_drop pos ks, mem_append, take_append_drop]
      exact or_iff_right fun hin => lt_irrefl key (hlow key hin)
    by_cases hin : key ∈ ks.drop pos
    · simp [searchKey, hn, hscan, hkey, hmem, hin]
    · simp [searchKey, hn, hscan, hkey, hmem, hin, hshows.isLeaf]
  | succ h ih =>
    rcases fuel with _ | fuel
    · omega
    rcases exists_branch t with ⟨a, ks, kids, rfl⟩
    rcases rep_branch.1 hrep with ⟨⟨n, hn, hshows⟩, hkids⟩
    rcases loaded_branch.1 hl with ⟨-, -, hlen, hloaded⟩
    have hsub := sublist_weave ks (kids.map LevelTree.inorder) (by rw [length_map, hlen])
    have hks : ks.Pairwise (· ≤ ·) := List.Pairwise.sublist hsub hsorted
    rcases hshows.filled.scanUp hks key with ⟨pos, hscan, hpos, hlow, hhigh⟩
    rw [← take_append_drop pos ks] at hshows hks
    have hkey := keyAt_spec hshows (pairwise_append.1 hks).2.1 hhigh
    have hpos' := length_take_of_le hpos
    rw [hpos'] at hkey
    by_cases hin : key ∈ ks.drop pos
    · have hfound : key ∈ (branch a ks kids).inorder := hsub.subset (mem_of_mem_drop hin)
      simp only [searchKey, addr_branch, hn, hscan, hkey, hin, hfound, bind_eq_bind,
        bind_some, decide_true, if_true]
    · rcases exists_split_at hlen hpos with ⟨A, u, B, rfl, hA, hB⟩
      have hchild : n.child.get pos = some (some u.addr) := by
        apply hshows.filled.kid
        · rw [← hpos', ← hA]
          simp
        · rwa [take_append_drop]
      have hsorted' := hsorted
      rw [← take_append_drop pos ks, inorder_split hA hB] at hsorted'
      have hmem : key ∈ (branch a ks (A ++ u :: B)).inorder ↔ key ∈ u.inorder := by
        rw [inorder_branch, map_append, map_cons]
        nth_rewrite 1 [← take_append_drop pos ks]
        apply mem_weave_split (by rw [length_map, hA]) (by rw [length_map, hB]) hsorted' hlow
        intro k hk
        exact lt_of_le_of_ne (hhigh k hk) fun heq => hin (heq ▸ hk)
      have hu : u.inorder.Pairwise (· ≤ ·) := (pairwise_append.1 (pairwise_append.1 hsorted').2.1).1
      have hrec := ih (hkids u (by simp)) (hloaded u (by simp)) hu (Nat.lt_of_succ_lt_succ hfuel)
      simp only [searchKey, addr_branch, hn, hscan, hkey, hin, hshows.isLeaf, hchild,
        bind_eq_bind, bind_some, hmem]
      exact hrec

theorem shaped_of_rep (hrep : Rep Shows H t) (hl : Loaded 1 MAX t) : Shaped H h t.addr := by
  induction h with
  | zero =>
    rcases rep_leaf.1 hrep with ⟨n, hn, hshows⟩
    refine ⟨n, hn, hshows.isLeaf, ?_, hshows.filled.le_cap⟩
    rw [hshows.count_eq]
    exact hl.1
  | succ h ih =>
    rcases exists_branch t with ⟨a, ks, kids, rfl⟩
    rcases rep_branch.1 hrep with ⟨⟨n, hn, hshows⟩, hkids⟩
    rcases loaded_branch.1 hl with ⟨hlo, -, hlen, hloaded⟩
    have hcount := hshows.count_eq
    refine ⟨n, hn, hshows.isLeaf, by omega, hshows.filled.le_cap, fun i hi => ?_⟩
    have hlt : i < kids.length := by omega
    refine ⟨kids[i].addr, hshows.filled.kid ?_ (by omega), ?_⟩
    · rw [getElem?_map, getElem?_eq_getElem hlt]
      rfl
    · exact ih (hkids _ (getElem_mem hlt)) (hloaded _ (getElem_mem hlt))

/-! ## Runs -/

theorem run_stores (keys : List Int) : ∃ s, run keys = some s ∧ Stores s keys := by
  have hstep : ∀ (s : Tree) (stored : List Int) (key : Int), Stores s stored →
      ∃ s', insert s key = some s' ∧ Stores s' (key :: stored) :=
    fun s stored key hs => insert_spec hs key
  rcases runCalls_simulates (fun stored key => key :: stored) (R := Stores) hstep
    (.inl ⟨rfl, rfl⟩ : Stores emptyTree []) keys with ⟨s, hrun, hstores⟩
  refine ⟨s, hrun, hstores.perm ?_⟩
  simp

/-- After any insertions the tree reads as the sorted list of the inserted keys, and the search
finds exactly these. -/
theorem btree_content_and_search (keys : List Int) :
    ∃ s, run keys = some s ∧ inorder s = some (keys.mergeSort (· ≤ ·)) ∧
      ∀ k, search s k = some (decide (k ∈ keys)) := by
  rcases run_stores keys with ⟨s, hrun, hstores⟩
  refine ⟨s, hrun, ?_⟩
  rcases hstores with ⟨hroot, rfl⟩ | ⟨h, t, hroot, hholds, hperm⟩
  · refine ⟨by simp [inorder, hroot], fun k => ?_⟩
    rw [search, hroot]
    simp [searchKey]
  · have hfuel : h < s.heap.brk := hholds.footed.level_lt_brk hholds.loaded
    have hsort : t.inorder = keys.mergeSort (· ≤ ·) := eq_mergeSort hholds.sorted hperm
    refine ⟨?_, fun k => ?_⟩
    · rw [inorder, hroot]
      simp only
      rw [inorderFrom_spec hholds.footed.rep hfuel, hsort]
    · rw [search, hroot, searchKey_spec hholds.footed.rep hholds.loaded hholds.sorted k (by omega)]
      simp only [hperm.mem_iff]

/-- After any insertions, none of which reads or writes outside the arrays, the tree has all leaves
at one depth and between one and `MAX` keys in every node, so it holds at least `2 ^ levels - 1`
keys. -/
theorem btree_shape (keys : List Int) : ∃ s, run keys = some s ∧ ∀ root, s.root = some root →
        ∃ d l, Shaped s.heap d root ∧ inorder s = some l ∧ 2 ^ (d + 1) - 1 ≤ l.length := by
  rcases run_stores keys with ⟨s, hrun, hstores⟩
  refine ⟨s, hrun, fun root hroot => ?_⟩
  rcases hstores with ⟨hnone, -⟩ | ⟨h, t, hsome, hholds, hperm⟩
  · rw [hroot] at hnone
    cases hnone
  · rw [hroot] at hsome
    cases hsome
    refine ⟨h, t.inorder, shaped_of_rep hholds.footed.rep hholds.loaded, ?_,
      pow_le_length_inorder hholds.loaded⟩
    rw [inorder, hroot]
    exact inorderFrom_spec hholds.footed.rep (hholds.footed.level_lt_brk hholds.loaded)

end SystemsLab.BTree
