import SystemsLab.BTree.Model

/-!
# One insertion

`Holds H t` is the invariant of a subtree: it lies in the heap, every node has between one and `MAX`
keys, and its content is sorted.  `Inserted key H t H' t'` relates a subtree before and after an
insertion.

The descent is proved by induction on the level.  Before it enters a full child it splits it, so the
child that is entered always has room; `Inserted.of_kid` carries the result of the child to the
parent.
-/

namespace SystemsLab.BTree

open CArray LevelTree List Option Heap

structure Holds (H : Heap BTreeNode) {h : Nat} (t : LevelTree Int h) : Prop where
  footed : Footed Shows H t
  loaded : Loaded 1 MAX t
  sorted : t.inorder.Pairwise (· ≤ ·)

/-- The subtree `t'` is `t` with one more key. -/
structure Inserted (key : Int) (H : Heap BTreeNode) {h : Nat} (t : LevelTree Int h)
    (H' : Heap BTreeNode) (t' : LevelTree Int h) : Prop where
  holds : Holds H' t'
  addr_eq : t'.addr = t.addr
  grows : Heap.Grows H H' t.addrs t'.addrs
  perm : t'.inorder.Perm (key :: t.inorder)

variable {H H' : Heap BTreeNode} {h : Nat} {a : Ptr} {key m : Int} {K J : List Int}
  {A B : List (LevelTree Int h)} {t t' : LevelTree Int h}

theorem inorder_split (hK : A.length = K.length) (hJ : B.length = J.length)
    (u : LevelTree Int h) : (branch a (K ++ J) (A ++ u :: B)).inorder =
      weaveFront K (A.map inorder) ++ (u.inorder ++ weaveBack J (B.map inorder)) := by
  rw [inorder_branch, map_append, map_cons]
  exact weave_split (by rw [length_map, hK]) (by rw [length_map, hJ]) _

theorem Holds.kid (hT : Holds H (branch a (K ++ J) (A ++ t :: B))) (hK : A.length = K.length)
    (hJ : B.length = J.length) : Holds H t := by
  refine ⟨hT.footed.kid, (loaded_branch.1 hT.loaded).2.2.2 t (by simp), ?_⟩
  have hsorted := hT.sorted
  rw [inorder_split hK hJ] at hsorted
  exact (pairwise_append.1 (pairwise_append.1 hsorted).2.1).1

theorem Inserted.of_kid (hT : Holds H (branch a (K ++ J) (A ++ t :: B)))
    (hK : A.length = K.length) (hJ : B.length = J.length)
    (hlow : ∀ k ∈ K, k ≤ key) (hhigh : ∀ k ∈ J, key ≤ k) (ht : Inserted key H t H' t') :
    Inserted key H (branch a (K ++ J) (A ++ t :: B)) H' (branch a (K ++ J) (A ++ t' :: B)) := by
  rcases hT.footed.replace ht.grows ht.holds.footed ht.addr_eq with ⟨hfooted, hgrows⟩
  rcases loaded_branch.1 hT.loaded with ⟨hlo, hhi, hlen, hkids⟩
  refine ⟨⟨hfooted, loaded_branch.2 ⟨hlo, hhi, by simpa using hlen, ?_⟩, ?_⟩, rfl, hgrows, ?_⟩
  · intro k hk
    have hcases : k ∈ A ++ t :: B ∨ k = t' := by
      simp only [mem_append, mem_cons] at hk ⊢
      tauto
    rcases hcases with hk | rfl
    · exact hkids k hk
    · exact ht.holds.loaded
  · have hsorted := hT.sorted
    rw [inorder_split hK hJ] at hsorted ⊢
    refine sorted_replace hsorted ht.holds.sorted ?_ hlow hhigh
    intro x hx
    exact mem_cons.1 (ht.perm.mem_iff.1 hx)
  · rw [inorder_split hK hJ, inorder_split hK hJ]
    calc
      Perm _ (weaveFront K (A.map inorder) ++ (key :: t.inorder ++ weaveBack J (B.map inorder))) :=
        (ht.perm.append_right _).append_left _
      Perm _ _ := perm_middle

theorem childAt_spec {ks : List Int} {kids : List (LevelTree Int h)} {i : Nat}
    (hrep : Rep Shows H (branch a ks kids)) (hi : i ≤ ks.length) (ht : kids[i]? = some t) :
    childAt H a i = some t.addr := by
  rcases rep_branch.1 hrep with ⟨⟨n, hn, hshows⟩, -⟩
  have hc : (kids.map addr)[i]? = some t.addr := by
    rw [getElem?_map, ht]
    rfl
  simp [childAt, hn, hshows.filled.kid hc hi]

theorem chooseHalf_spec {kids : List (LevelTree Int h)}
    (hrep : Rep Shows H (branch a (K ++ m :: J) kids)) (key : Int) :
    chooseHalf H a K.length key = some (if key > m then K.length + 1 else K.length) := by
  rcases rep_branch.1 hrep with ⟨⟨n, hn, hshows⟩, -⟩
  have hm : (K ++ m :: J)[K.length]? = some m := by simp
  simp [chooseHalf, hn, hshows.filled.key hm]

/-- The insertion into subtrees of one level, for every bound on the depth that is large enough. -/
def InsertsAt (key : Int) (h : Nat) : Prop :=
  ∀ (H : Heap BTreeNode) (t : LevelTree Int h) (fuel : Nat), h < fuel → Holds H t →
    t.keys.length < MAX →
      ∃ H' t', insertWhenNonFull key fuel H t.addr = some H' ∧ Inserted key H t H' t'

theorem holds_split (hf : Footed Shows H' (branch a (K ++ m :: J)
      (A ++ takeHalf (MAX / 2) t :: dropHalf H.brk (MAX / 2) t :: B)))
    (hK : A.length = K.length) (hJ : B.length = J.length) (hroom : (K ++ J).length < MAX)
    (hfull : t.keys.length = MAX) (hm : t.keys[MAX / 2]? = some m)
    (hkids : ∀ k ∈ A ++ t :: B, Loaded 1 MAX k)
    (hsorted : (branch a (K ++ J) (A ++ t :: B)).inorder.Pairwise (· ≤ ·)) :
    Holds H' (branch a (K ++ m :: J) (A ++ takeHalf (MAX / 2) t ::
      dropHalf H.brk (MAX / 2) t :: B)) ∧
    (branch a (K ++ m :: J) (A ++ takeHalf (MAX / 2) t :: dropHalf H.brk (MAX / 2) t :: B)).inorder
    = (branch a (K ++ J) (A ++ t :: B)).inorder := by
  have ht : Loaded 1 MAX t := hkids t (by simp)
  have hinorder : (branch a (K ++ m :: J)
      (A ++ takeHalf (MAX / 2) t :: dropHalf H.brk (MAX / 2) t :: B)).inorder =
      (branch a (K ++ J) (A ++ t :: B)).inorder := by
    have hK' : K.length = (A.map inorder).length := by rw [length_map, hK]
    have hJ' : J.length = (B.map inorder).length := by rw [length_map, hJ]
    simp only [inorder_branch, map_append, map_cons]
    rw [weave_cut hK' hJ', weave_split hK' hJ', inorder_halves ht hm]
  refine ⟨⟨hf, loaded_branch.2 ⟨?_, ?_, ?_, ?_⟩, ?_⟩, hinorder⟩
  · rw [length_append, length_cons]
    omega
  · simp only [length_append, length_cons] at hroom ⊢
    omega
  · simp only [length_append, length_cons]
    omega
  · intro k hk
    have hcases : k ∈ A ++ t :: B ∨ k = takeHalf (MAX / 2) t ∨ k = dropHalf H.brk (MAX / 2) t := by
      simp only [mem_append, mem_cons] at hk ⊢
      tauto
    rcases hcases with hk | rfl | rfl
    · exact hkids k hk
    · exact ht.takeHalf (by rw [hfull]; decide) (by decide)
    · exact ht.dropHalf (by rw [hfull]; decide) _
  · rwa [hinorder]

theorem splitAndInsert_spec (ih : InsertsAt key h)
    (hf : Footed Shows H (branch a (K ++ J) (A ++ t :: B)))
    (hK : A.length = K.length) (hJ : B.length = J.length) (hroom : (K ++ J).length < MAX)
    (hfull : t.keys.length = MAX) (hkids : ∀ k ∈ A ++ t :: B, Loaded 1 MAX k)
    (hsorted : (branch a (K ++ J) (A ++ t :: B)).inorder.Pairwise (· ≤ ·))
    (hlow : ∀ k ∈ K, k ≤ key) (hhigh : ∀ k ∈ J, key ≤ k) :
    ∃ H1 i c, splitChild H a K.length t.addr = some H1 ∧ chooseHalf H1 a K.length key = some i ∧
      childAt H1 a i = some c ∧ H.brk ≤ H1.brk ∧ ∀ fuel, h < fuel → ∃ H2 T,
        insertWhenNonFull key fuel H1 c = some H2 ∧
        Inserted key H (branch a (K ++ J) (A ++ t :: B)) H2 T := by
  rcases splitChild_spec hf hK hroom hfull with ⟨H1, m, hsplit, hm, hf1, hgrows⟩
  rcases holds_split hf1 hK hJ hroom hfull hm hkids hsorted with ⟨hholds, hinorder⟩
  have hchoose := chooseHalf_spec hf1.rep key
  have hhalf : (takeHalf (MAX / 2) t).keys.length < MAX ∧
    (dropHalf H.brk (MAX / 2) t).keys.length < MAX := by
    simp only [keys_takeHalf, keys_dropHalf, length_take, length_drop, hfull]
    decide
  -- what is inserted into the split tree is inserted into the whole one
  have hwhole : ∀ {H2 T}, Inserted key H1 (branch a (K ++ m :: J)
      (A ++ takeHalf (MAX / 2) t :: dropHalf H.brk (MAX / 2) t :: B)) H2 T →
      Inserted key H (branch a (K ++ J) (A ++ t :: B)) H2 T := by
    intro H2 T hins
    exact ⟨hins.holds, hins.addr_eq, hgrows.trans hins.grows, hinorder ▸ hins.perm⟩
  by_cases hgt : key > m
  · -- the right half, behind the key that moved up
    rw [if_pos hgt] at hchoose
    have hshape : branch a (K ++ m :: J)
        (A ++ takeHalf (MAX / 2) t :: dropHalf H.brk (MAX / 2) t :: B) =
        branch a ((K ++ [m]) ++ J) ((A ++ [takeHalf (MAX / 2) t]) ++
          dropHalf H.brk (MAX / 2) t :: B) := by simp
    have hchild := childAt_spec (i := K.length + 1) (t := dropHalf H.brk (MAX / 2) t) hf1.rep
      (by simp) (by rw [← hK]; simp)
    refine ⟨H1, _, _, hsplit, hchoose, hchild, hgrows.brk, fun fuel hfuel => ?_⟩
    rw [hshape] at hholds hwhole
    have hkid : Holds H1 (dropHalf H.brk (MAX / 2) t) := hholds.kid (by simp [hK]) hJ
    rcases ih H1 _ fuel hfuel hkid hhalf.2 with ⟨H2, t', hrun, hins⟩
    refine ⟨H2, _, hrun, hwhole (hins.of_kid hholds (by simp [hK]) hJ ?_ hhigh)⟩
    intro k hk
    rcases mem_append.1 hk with hk | hk
    · exact hlow k hk
    · rw [mem_singleton.1 hk]
      exact hgt.le
  · -- the left half; a key equal to the one that moved up goes here too
    rw [if_neg hgt] at hchoose
    have hchild := childAt_spec (i := K.length) (t := takeHalf (MAX / 2) t) hf1.rep (by simp)
      (by rw [← hK]; simp)
    refine ⟨H1, _, _, hsplit, hchoose, hchild, hgrows.brk, fun fuel hfuel => ?_⟩
    have hkid : Holds H1 (takeHalf (MAX / 2) t) := hholds.kid hK (by simp [hJ])
    rcases ih H1 _ fuel hfuel hkid hhalf.1 with ⟨H2, t', hrun, hins⟩
    refine ⟨H2, _, hrun, hwhole (hins.of_kid hholds hK (by simp [hJ]) hlow ?_)⟩
    intro k hk
    rcases mem_cons.1 hk with rfl | hk
    · exact not_lt.1 hgt
    · exact hhigh k hk

theorem insertWhenNonFull_leaf (key : Int) : InsertsAt key 0 := by
  intro H t fuel hfuel hholds hroom
  rcases fuel with _ | fuel
  · omega
  rcases exists_leaf t with ⟨a, ks, rfl⟩
  rcases rep_leaf.1 hholds.footed.rep with ⟨n, hn, hshows⟩
  rcases insertIntoLeaf_spec hshows hroom hholds.sorted key
    with ⟨n', ks', hinsert, hshows', hsorted, hperm⟩
  have hlen := hshows'.filled.length_le
  refine ⟨H.adjust a fun _ => n', leaf a ks', ?_, ⟨⟨rep_leaf.2 ⟨n', ?_, hshows'⟩, ?_⟩, ?_, hsorted⟩,
    rfl, ⟨le_rfl, ?_, ?_⟩, hperm⟩
  · simp [insertWhenNonFull, hn, hshows.isLeaf, hinsert, modify_eq hn]
  · exact adjust_self hn
  · exact nodup_singleton a
  · exact ⟨by rw [show Leaf.keys (leaf a ks') = ks' from rfl, hperm.length_eq]; simp, hlen⟩
  · intro b hb _
    exact adjust_of_ne fun heq => hb (by simp [heq])
  · intro b hb
    exact .inl hb

/-- One step down, with the split of a full child. -/
theorem insertWhenNonFull_branch (ih : InsertsAt key h) : InsertsAt key (h + 1) := by
  intro H T fuel hfuel hholds hroom
  rcases fuel with _ | fuel
  · omega
  rcases exists_branch T with ⟨a, ks, kids, rfl⟩
  rcases rep_branch.1 hholds.footed.rep with ⟨⟨n, hn, hshows⟩, -⟩
  rcases loaded_branch.1 hholds.loaded with ⟨hlo, -, hlen, hkids⟩
  have hks : ks.Pairwise (· ≤ ·) :=
    Pairwise.sublist (sublist_weave ks (kids.map inorder) (by rw [length_map, hlen])) hholds.sorted
  rcases scanDown_front key (a := n.keys) hshows.filled.le_cap (by rwa [hshows.filled.keys_eq])
    with ⟨pos, hscan, hpos, hlow, hhigh⟩
  rw [hshows.filled.keys_eq] at hlow hhigh
  rw [hshows.count_eq] at hpos
  rcases exists_split_at hlen hpos with ⟨A, t, B, rfl, hA, hB⟩
  have hpos' : (ks.take pos).length = pos := length_take_of_le hpos
  have hchild : childAt H a pos = some t.addr :=
    childAt_spec hholds.footed.rep hpos (by rw [← hpos', ← hA]; simp)
  rw [← take_append_drop pos ks] at hholds hroom
  have ht : Holds H t := hholds.kid hA hB
  rcases ht.footed.rep.root with ⟨cn, hcn, hcn_shows⟩
  by_cases hfull : cn.count = MAX
  · rw [hcn_shows.count_eq] at hfull
    rcases splitAndInsert_spec ih hholds.footed hA hB hroom hfull hkids hholds.sorted hlow
      (fun k hk => (hhigh k hk).le) with ⟨H1, i, c, hsplit, hchoose, hchild', -, hrec⟩
    rcases hrec fuel (by omega) with ⟨H2, T', hrun, hins⟩
    rw [hpos'] at hsplit hchoose
    refine ⟨H2, T', ?_, take_append_drop pos ks ▸ hins⟩
    simp only [insertWhenNonFull, addr_branch, hn, hshows.isLeaf, hscan, hchild, hcn,
      hcn_shows.count_eq, hfull, hsplit, hchoose, hchild', bind_eq_bind, bind_some]
    exact hrun
  · have hroom' : t.keys.length < MAX := by
      have hle := hcn_shows.filled.length_le
      rw [hcn_shows.count_eq] at hfull
      omega
    rcases ih H t fuel (by omega) ht hroom' with ⟨H1, t', hrun, hins⟩
    refine ⟨H1, _, ?_, take_append_drop pos ks ▸ hins.of_kid hholds hA hB hlow fun k hk =>
      (hhigh k hk).le⟩
    simp only [insertWhenNonFull, addr_branch, hn, hshows.isLeaf, hscan, hchild, hcn, hfull,
      bind_eq_bind, bind_some]
    exact hrun

theorem insertWhenNonFull_spec (key : Int) (h : Nat) : InsertsAt key h := by
  induction h with
  | zero => exact insertWhenNonFull_leaf key
  | succ h ih => exact insertWhenNonFull_branch ih

/-! ## `insert` -/

theorem firstNode_spec (key : Int) : ∃ n, firstNode key = some n ∧ Shows n true [key] [] := by
  rcases exists_set (createNode true).keys (i := 0) (by decide) key with ⟨keys, hset, hget⟩
  have hone : 1 ≤ MAX := by decide
  have hfront : keys.front 1 = [key] := front_one hone (by rw [hget, if_pos rfl])
  refine ⟨⟨keys, 1, CArray.fill none, true⟩, ?_, rfl, hone, hfront, nofun, nofun⟩
  simp only [firstNode, hset]
  rfl

theorem rootAbove_spec (root : Ptr) : ∃ n, rootAbove root = some n ∧ Shows n false [] [root] := by
  rcases exists_set (createNode false).child (i := 0) (by decide) (some root)
    with ⟨child, hset, hget⟩
  have hfront : child.front 1 = [some root] := front_one (by decide) (by rw [hget, if_pos rfl])
  refine ⟨⟨CArray.fill 0, 0, child, false⟩, ?_, rfl, Nat.zero_le _, rfl, fun _ => Nat.succ_pos _,
    fun _ => hfront⟩
  simp only [rootAbove, hset]
  rfl

theorem footed_rootAbove (ht : Footed Shows H t) {n : BTreeNode} (hn : Shows n false [] [t.addr]) :
    Footed Shows (H.alloc H.brk n) (branch H.brk [] [t]) := by
  have hkeep : ∀ a ∈ t.addrs, (H.alloc H.brk n).cell a = H.cell a := by
    intro a ha
    exact alloc_brk_of_ne (ht.lt_brk ha).ne
  refine ⟨rep_branch.2 ⟨⟨n, alloc_brk_self H n, hn⟩, ?_⟩, ?_⟩
  · intro k hk
    rw [mem_singleton.1 hk]
    exact ht.rep.congr hkeep
  · rw [addrs_branch, map_singleton, flatten_singleton]
    refine nodup_cons.2 ⟨?_, ht.nodup⟩
    intro hmem
    exact (ht.lt_brk hmem).ne rfl

def Stores (s : Tree) (keys : List Int) : Prop :=
  (s.root = none ∧ keys = []) ∨
    ∃ (h : Nat) (t : LevelTree Int h), s.root = some t.addr ∧ Holds s.heap t ∧ t.inorder.Perm keys

theorem Stores.perm {s : Tree} {keys keys' : List Int} (hs : Stores s keys)
    (hperm : keys.Perm keys') : Stores s keys' := by
  rcases hs with ⟨hroot, rfl⟩ | ⟨h, t, hroot, hholds, hkeys⟩
  · exact .inl ⟨hroot, hperm.nil_eq.symm⟩
  · exact .inr ⟨h, t, hroot, hholds, hkeys.trans hperm⟩

theorem insert_first (H : Heap BTreeNode) (key : Int) :
    ∃ s, insert ⟨H, none⟩ key = some s ∧ Stores s [key] := by
  rcases firstNode_spec key with ⟨n, hn, hshows⟩
  have hloaded : Loaded 1 MAX (leaf H.brk [key]) := ⟨le_rfl, hshows.filled.length_le⟩
  have hfooted : Footed Shows (H.alloc H.brk n) (leaf H.brk [key]) :=
    ⟨rep_leaf.2 ⟨n, alloc_brk_self H n, hshows⟩, nodup_singleton _⟩
  refine ⟨⟨H.alloc H.brk n, some H.brk⟩, ?_, .inr ⟨0, leaf H.brk [key], rfl,
    ⟨hfooted, hloaded, pairwise_singleton _ _⟩, Perm.refl _⟩⟩
  simp [insert, hn]

theorem insert_full (hholds : Holds H t) (hfull : t.keys.length = MAX) (key : Int) :
    ∃ s, insert ⟨H, some t.addr⟩ key = some s ∧ Stores s (key :: t.inorder) := by
  have hfuel : h < H.brk := hholds.footed.level_lt_brk hholds.loaded
  rcases hholds.footed.rep.root with ⟨n, hn, hshows⟩
  rcases rootAbove_spec t.addr with ⟨new, hnew, hnew_shows⟩
  have hf := footed_rootAbove hholds.footed hnew_shows
  -- for a moment the root has no key and one child
  have hinorder : (branch H.brk [] [t]).inorder = t.inorder := by simp [weave]
  rcases splitAndInsert_spec (K := []) (J := []) (A := []) (B := [])
    (insertWhenNonFull_spec key h) hf rfl rfl (by decide) hfull (by simpa using hholds.loaded)
    (by simpa [weave] using hholds.sorted) (by simp) (by simp)
    with ⟨H1, i, c, hsplit, hchoose, hchild, hbrk, hrec⟩
  rw [brk_alloc_brk] at hbrk
  rcases hrec H1.brk (by omega) with ⟨H2, T, hrun, hins⟩
  refine ⟨⟨H2, some H.brk⟩, ?_, .inr ⟨h + 1, T, ?_, hins.holds, ?_⟩⟩
  · rw [length_nil] at hsplit hchoose
    simp [insert, hn, hshows.count_eq, hfull, hnew, hsplit, hchoose, hchild, hrun]
  · rw [hins.addr_eq]
    rfl
  · calc
      T.inorder.Perm (key :: (branch H.brk [] [t]).inorder) := hins.perm
      Perm _ (key :: t.inorder) := by rw [hinorder]

theorem insert_nonFull (hholds : Holds H t) (hfull : t.keys.length ≠ MAX) (key : Int) :
    ∃ s, insert ⟨H, some t.addr⟩ key = some s ∧ Stores s (key :: t.inorder) := by
  have hfuel : h < H.brk := hholds.footed.level_lt_brk hholds.loaded
  rcases hholds.footed.rep.root with ⟨n, hn, hshows⟩
  have hle := hshows.filled.length_le
  rcases insertWhenNonFull_spec key h H t H.brk hfuel hholds (by omega) with ⟨H', t', hrun, hins⟩
  refine ⟨⟨H', some t.addr⟩, ?_, .inr ⟨h, t', by rw [hins.addr_eq], hins.holds, hins.perm⟩⟩
  simp [insert, hn, hshows.count_eq, hfull, hrun]

/-- `insert` never gets stuck and adds one copy of the key. -/
theorem insert_spec {s : Tree} {keys : List Int} (hs : Stores s keys) (key : Int) :
    ∃ s', insert s key = some s' ∧ Stores s' (key :: keys) := by
  rcases s with ⟨H, root⟩
  rcases hs with ⟨hroot, rfl⟩ | ⟨h, t, hroot, hholds, hperm⟩
  · cases hroot
    exact insert_first H key
  · cases hroot
    have hinsert : ∃ s, insert ⟨H, some t.addr⟩ key = some s ∧ Stores s (key :: t.inorder) := by
      by_cases hfull : t.keys.length = MAX
      · exact insert_full hholds hfull key
      · exact insert_nonFull hholds hfull key
    rcases hinsert with ⟨s, hs, hstores⟩
    exact ⟨s, hs, hstores.perm (hperm.cons key)⟩

end SystemsLab.BTree
