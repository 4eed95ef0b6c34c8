import SystemsLab.Data.Heap
import SystemsLab.Data.LevelTree

/-!
# Multiway trees in a heap

`Rep shows H t` says that every node of `t` is a cell of the heap that shows the keys of the node
and the addresses of its subtrees; what a cell shows is a parameter.  `Footed H t` adds that the
nodes have distinct addresses.

An operation that works inside one subtree grows the heap (`Heap.Grows`) and leaves the siblings
alone: `Footed.replace` is that frame rule for one subtree of a branch.
-/

namespace SystemsLab.LevelTree

open List

variable {κ ν : Type} {shows : ν → Bool → List κ → List Nat → Prop} {H H' : Heap ν} {h : Nat}

/-- The cells of the heap show the tree. -/
def Rep (shows : ν → Bool → List κ → List Nat → Prop) (H : Heap ν) :
    {h : Nat} → LevelTree κ h → Prop
  | 0, (t : Leaf κ) => ∃ n, H.cell t.addr = some n ∧ shows n true t.keys []
  | _ + 1, (t : Branch κ _) =>
    (∃ n, H.cell t.addr = some n ∧ shows n false t.keys (t.kids.map addr)) ∧
      ∀ k ∈ t.kids, Rep shows H k

variable {a : Nat} {ks : List κ} {t : LevelTree κ h}

theorem rep_leaf : Rep shows H (leaf a ks) ↔ ∃ n, H.cell a = some n ∧ shows n true ks [] := Iff.rfl

variable {kids : List (LevelTree κ h)}

theorem rep_branch : Rep shows H (branch a ks kids) ↔
      (∃ n, H.cell a = some n ∧ shows n false ks (kids.map addr)) ∧ ∀ k ∈ kids,
      Rep shows H k := Iff.rfl

theorem mem_addrs_branch {b : Nat} : b ∈ (branch a ks kids).addrs ↔ b = a ∨ ∃ k ∈ kids,
    b ∈ k.addrs := by
  simp

theorem Rep.congr (hrep : Rep shows H t) (hcell : ∀ a ∈ t.addrs, H'.cell a = H.cell a) :
    Rep shows H' t := by
  induction h with
  | zero =>
    rcases hrep with ⟨n, hn, hshows⟩
    exact ⟨n, (hcell _ (addr_mem_addrs t)).trans hn, hshows⟩
  | succ h ih =>
    rcases hrep with ⟨⟨n, hn, hshows⟩, hkids⟩
    refine ⟨⟨n, (hcell _ (addr_mem_addrs t)).trans hn, hshows⟩, fun k hk => ?_⟩
    apply ih (hkids k hk)
    intro a ha
    exact hcell a (mem_addrs_branch.2 (.inr ⟨k, hk, ha⟩))

theorem Rep.allocated (hrep : Rep shows H t) : ∀ a ∈ t.addrs, ∃ n, H.cell a = some n := by
  induction h with
  | zero =>
    rcases hrep with ⟨n, hn, -⟩
    intro a ha
    rw [mem_singleton.1 ha]
    exact ⟨n, hn⟩
  | succ h ih =>
    rcases hrep with ⟨⟨n, hn, -⟩, hkids⟩
    intro a ha
    rcases mem_addrs_branch.1 ha with rfl | ⟨k, hk, ha⟩
    · exact ⟨n, hn⟩
    · exact ih (hkids k hk) a ha

/-- The tree is in the heap, at distinct addresses. -/
structure Footed (shows : ν → Bool → List κ → List Nat → Prop) (H : Heap ν) (t : LevelTree κ h) :
    Prop where
  rep : Rep shows H t
  nodup : t.addrs.Nodup

theorem Footed.lt_brk (hf : Footed shows H t) (ha : a ∈ t.addrs) : a < H.brk := by
  rcases hf.rep.allocated a ha with ⟨n, hn⟩
  exact Heap.lt_brk hn

/-- Whether the nodes of a level are leaves. -/
def bottom : Nat → Bool
  | 0 => true
  | _ + 1 => false

def kidAddrs : {h : Nat} → LevelTree κ h → List Nat
  | 0, _ => []
  | _ + 1, (t : Branch κ _) => t.kids.map addr

theorem Rep.root (hrep : Rep shows H t) :
    ∃ n, H.cell t.addr = some n ∧ shows n (bottom h) t.keys t.kidAddrs := by
  cases h with
  | zero => exact hrep
  | succ h => exact hrep.1

section Kids

variable {a : Nat} {ks ks' : List κ} {A B T : List (LevelTree κ h)} {t t' : LevelTree κ h}

theorem addrs_perm (a : Nat) (ks : List κ) (A B T : List (LevelTree κ h)) :
    (branch a ks (A ++ (T ++ B))).addrs.Perm
      (a :: (T.map addrs).flatten ++ ((A.map addrs).flatten ++ (B.map addrs).flatten)) := by
  simp only [addrs_branch, map_append, flatten_append]
  apply Perm.cons
  calc
    Perm _ ((T.map addrs).flatten ++ (B.map addrs).flatten ++ (A.map addrs).flatten) :=
      perm_append_comm
    Perm _ ((T.map addrs).flatten ++ ((B.map addrs).flatten ++ (A.map addrs).flatten)) := by
      rw [append_assoc]
    Perm _ _ := perm_append_comm.append_left _

theorem addrs_perm_single (a : Nat) (ks : List κ) (A B : List (LevelTree κ h)) (t : LevelTree κ h) :
    (branch a ks (A ++ t :: B)).addrs.Perm (a :: t.addrs ++
      ((A.map addrs).flatten ++ (B.map addrs).flatten)) := by
  have hperm := addrs_perm a ks A B [t]
  rwa [map_singleton, flatten_singleton] at hperm

theorem Footed.kid (hf : Footed shows H (branch a ks (A ++ t :: B))) : Footed shows H t := by
  refine ⟨(rep_branch.1 hf.rep).2 t (by simp), ?_⟩
  have hnodup := (addrs_perm_single a ks A B t).nodup_iff.1 hf.nodup
  exact (nodup_cons.1 (nodup_append.1 hnodup).1).2

variable {kids : List (LevelTree κ h)} {k : LevelTree κ h}

theorem Footed.kid_congr (hf : Footed shows H (branch a ks kids))
    (hother : ∀ b ∈ (branch a ks kids).addrs, b ≠ a → H'.cell b = H.cell b) (hk : k ∈ kids) :
    Rep shows H' k := by
  apply ((rep_branch.1 hf.rep).2 k hk).congr
  intro b hb
  have hmem : b ∈ (kids.map addrs).flatten := mem_flatMap.2 ⟨_, hk, hb⟩
  apply hother b (mem_cons_of_mem _ hmem)
  rintro rfl
  exact (nodup_cons.1 hf.nodup).1 hmem

variable (hf : Footed shows H (branch a ks (A ++ t :: B)))

include hf

theorem Footed.addr_notMem_kid : a ∉ t.addrs := by
  have hnodup := (addrs_perm_single a ks A B t).nodup_iff.1 hf.nodup
  exact (nodup_cons.1 (nodup_append.1 hnodup).1).1

theorem Footed.sibling_cells {F : List Nat}
    (hg : Heap.Grows H H' (a :: t.addrs) F) (hk : k ∈ A ∨ k ∈ B) :
    ∀ b ∈ k.addrs, H'.cell b = H.cell b := by
  intro b hb
  have hold := addrs_perm_single a ks A B t
  rcases nodup_append.1 (hold.nodup_iff.1 hf.nodup) with ⟨-, -, hdisj⟩
  have hmem : b ∈ (A.map addrs).flatten ++ (B.map addrs).flatten := by
    rcases hk with hk | hk
    · exact mem_append_left _ (mem_flatMap.2 ⟨_, hk, hb⟩)
    · exact mem_append_right _ (mem_flatMap.2 ⟨_, hk, hb⟩)
  apply hg.frame b
  · intro hb'
    exact hdisj b hb' b hmem rfl
  · exact hf.lt_brk (hold.mem_iff.2 (mem_append_right _ hmem))

/-- The frame rule: a change of the root and of one subtree leaves the other subtrees as they
were, also when the subtree becomes several. -/
theorem Footed.graft {n : ν} (hcell : H'.cell a = some n)
    (hshows : shows n false ks' ((A ++ (T ++ B)).map addr))
    (hg : Heap.Grows H H' (a :: t.addrs) (a :: (T.map addrs).flatten))
    (hrep : ∀ k ∈ T, Rep shows H' k) (hnodup : (a :: (T.map addrs).flatten).Nodup) :
    Footed shows H' (branch a ks' (A ++ (T ++ B))) ∧
      Heap.Grows H H' (branch a ks (A ++ t :: B)).addrs (branch a ks' (A ++ (T ++ B))).addrs := by
  have hold := addrs_perm_single a ks A B t
  have hnew := addrs_perm a ks' A B T
  rcases nodup_append.1 (hold.nodup_iff.1 hf.nodup) with ⟨-, hrest, hdisj⟩
  have hlt : ∀ b ∈ (A.map addrs).flatten ++ (B.map addrs).flatten, b < H.brk := by
    intro b hb
    exact hf.lt_brk (hold.mem_iff.2 (mem_append_right _ hb))
  have hkeep : ∀ k, k ∈ A ∨ k ∈ B → Rep shows H' k := by
    intro k hk
    have hkid : Rep shows H k := (rep_branch.1 hf.rep).2 k (by rcases hk with hk | hk <;> simp [hk])
    exact hkid.congr (hf.sibling_cells hg hk)
  refine ⟨⟨rep_branch.2 ⟨⟨n, hcell, hshows⟩, ?_⟩, ?_⟩, hg.brk, ?_, ?_⟩
  · intro k hk
    rcases mem_append.1 hk with hk | hk
    · exact hkeep k (.inl hk)
    · rcases mem_append.1 hk with hk | hk
      · exact hrep k hk
      · exact hkeep k (.inr hk)
  · -- an address of the new subtrees is one of the old subtree or unused before
    apply hnew.nodup_iff.2
    refine nodup_append.2 ⟨hnodup, hrest, ?_⟩
    intro b hb c hc
    rcases hg.fresh b hb with hb | hge
    · exact hdisj b hb c hc
    · have hclt := hlt c hc
      omega
  · intro b hb hblt
    apply hg.frame b _ hblt
    intro hb'
    exact hb (hold.mem_iff.2 (mem_append_left _ hb'))
  · intro b hb
    rcases mem_append.1 (hnew.mem_iff.1 hb) with hb | hb
    · rcases hg.fresh b hb with hb | hge
      · exact .inl (hold.mem_iff.2 (mem_append_left _ hb))
      · exact .inr hge
    · exact .inl (hold.mem_iff.2 (mem_append_right _ hb))

theorem Footed.replace
    (hg : Heap.Grows H H' t.addrs t'.addrs) (ht' : Footed shows H' t') (haddr : t'.addr = t.addr) :
    Footed shows H' (branch a ks (A ++ t' :: B)) ∧
      Heap.Grows H H' (branch a ks (A ++ t :: B)).addrs (branch a ks (A ++ t' :: B)).addrs := by
  rcases rep_branch.1 hf.rep with ⟨⟨n, hn, hshows⟩, -⟩
  have ha := hf.addr_notMem_kid
  have ha' : a ∉ t'.addrs := by
    intro hmem
    rcases hg.fresh a hmem with hmem | hge
    · exact ha hmem
    · have hlt := Heap.lt_brk hn
      omega
  apply hf.graft (T := [t']) (n := n)
  · rw [hg.frame a ha (Heap.lt_brk hn), hn]
  · simpa [haddr] using hshows
  · refine ⟨hg.brk, ?_, ?_⟩
    · intro b hb hlt
      exact hg.frame b (fun hb' => hb (mem_cons_of_mem _ hb')) hlt
    · intro b hb
      simp only [map_cons, map_nil, flatten_cons, flatten_nil, append_nil, mem_cons] at hb ⊢
      rcases hb with rfl | hb
      · exact .inl (.inl rfl)
      · rcases hg.fresh b hb with hb | hge
        · exact .inl (.inr hb)
        · exact .inr hge
  · intro k hk
    rw [mem_singleton.1 hk]
    exact ht'.rep
  · simpa using ⟨ha', ht'.nodup⟩

end Kids

/-! ## Splitting a node -/

/-- The left half of a tree: the node keeps `c` keys. -/
def takeHalf (c : Nat) : {h : Nat} → LevelTree κ h → LevelTree κ h
  | 0, (t : Leaf κ) => leaf t.addr (t.keys.take c)
  | _ + 1, (t : Branch κ _) => branch t.addr (t.keys.take c) (t.kids.take (c + 1))

/-- The right half of a tree, behind the key at place `c`, in a new node. -/
def dropHalf (b c : Nat) : {h : Nat} → LevelTree κ h → LevelTree κ h
  | 0, (t : Leaf κ) => leaf b (t.keys.drop (c + 1))
  | _ + 1, (t : Branch κ _) => branch b (t.keys.drop (c + 1)) (t.kids.drop (c + 1))

variable {a b c lo hi : Nat} {m : κ} {t : LevelTree κ h} {n : ν}

theorem takeHalf_branch (ks : List κ) (kids : List (LevelTree κ h)) :
    takeHalf c (branch a ks kids) = branch a (ks.take c) (kids.take (c + 1)) := rfl

theorem dropHalf_branch (ks : List κ) (kids : List (LevelTree κ h)) :
    dropHalf b c (branch a ks kids) = branch b (ks.drop (c + 1)) (kids.drop (c + 1)) := rfl

@[simp] theorem addr_takeHalf : (takeHalf c t).addr = t.addr := by
  cases h <;> rfl

@[simp] theorem addr_dropHalf : (dropHalf b c t).addr = b := by
  cases h <;> rfl

@[simp] theorem keys_takeHalf : (takeHalf c t).keys = t.keys.take c := by
  cases h <;> rfl

@[simp] theorem keys_dropHalf : (dropHalf b c t).keys = t.keys.drop (c + 1) := by
  cases h <;> rfl

theorem inorder_halves (hl : Loaded lo hi t) (hm : t.keys[c]? = some m) (b : Nat) :
    (takeHalf c t).inorder ++ m :: (dropHalf b c t).inorder = t.inorder := by
  cases h with
  | zero =>
    rcases exists_leaf t with ⟨a, ks, rfl⟩
    rw [keys_leaf] at hm
    rcases List.getElem?_eq_some_iff.1 hm with ⟨hc, rfl⟩
    have hsplit : ks.take c ++ ks[c] :: ks.drop (c + 1) = ks := by simp
    exact hsplit
  | succ h =>
    rcases exists_branch t with ⟨a, ks, kids, rfl⟩
    rcases loaded_branch.1 hl with ⟨-, -, hkids, -⟩
    rw [keys_branch] at hm
    have hweave := weave_halves (l := kids.map inorder) (by rw [List.length_map, hkids]) hm
    rwa [← List.map_take, ← List.map_drop] at hweave

variable {ks : List κ} {kids : List (LevelTree κ h)}

theorem loaded_takeHalf (hlen : kids.length = ks.length + 1) (hkids : ∀ k ∈ kids, Loaded lo hi k)
    (hc : c < ks.length) (hlo : lo ≤ c) (hhi : c ≤ hi) :
    Loaded lo hi (takeHalf c (branch a ks kids)) := by
  rw [takeHalf_branch]
  refine loaded_branch.2 ⟨?_, ?_, ?_, fun k hk => hkids k (mem_of_mem_take hk)⟩ <;>
    rw [length_take_of_le hc.le]
  · exact hlo
  · exact hhi
  · rw [length_take_of_le (by omega)]

theorem loaded_dropHalf (hlen : kids.length = ks.length + 1) (hkids : ∀ k ∈ kids, Loaded lo hi k)
    (hlo : lo + c < ks.length) (hhi : ks.length ≤ hi + (c + 1)) (b : Nat) :
    Loaded lo hi (dropHalf b c (branch a ks kids)) := by
  rw [dropHalf_branch]
  refine loaded_branch.2 ⟨?_, ?_, ?_, fun k hk => hkids k (mem_of_mem_drop hk)⟩ <;>
    simp only [length_drop] <;> omega

theorem Loaded.takeHalf (hl : Loaded lo hi t) (hc : c < t.keys.length) (hlo : lo ≤ c) :
    Loaded lo hi (takeHalf c t) := by
  cases h with
  | zero =>
    rcases exists_leaf t with ⟨a, ks, rfl⟩
    have hlen : (ks.take c).length = c := length_take_of_le hc.le
    exact ⟨hlo.trans_eq hlen.symm, hlen.trans_le (hc.le.trans hl.2)⟩
  | succ h =>
    rcases exists_branch t with ⟨a, ks, kids, rfl⟩
    rcases loaded_branch.1 hl with ⟨-, hhi, hkids, hall⟩
    rw [keys_branch] at hc
    exact loaded_takeHalf hkids hall hc hlo (by omega)

theorem Loaded.dropHalf (hl : Loaded lo hi t) (hc : lo + c < t.keys.length) (b : Nat) :
    Loaded lo hi (dropHalf b c t) := by
  cases h with
  | zero =>
    rcases exists_leaf t with ⟨a, ks, rfl⟩
    have hlen : (ks.drop (c + 1)).length = ks.length - (c + 1) := length_drop
    have hhi : ks.length ≤ hi := hl.2
    rw [keys_leaf] at hc
    exact ⟨le_of_le_of_eq (by omega) hlen.symm, hlen.trans_le (by omega)⟩
  | succ h =>
    rcases loaded_branch.1 hl with ⟨-, hhi, hkids, hall⟩
    exact loaded_dropHalf hkids hall hc (by omega) b

theorem addrs_halves (t : LevelTree κ h) (b : Nat) :
    ((takeHalf c t).addrs ++ (dropHalf b c t).addrs).Perm (b :: t.addrs) := by
  cases h with
  | zero => exact .swap ..
  | succ h =>
    rcases exists_branch t with ⟨a, ks, kids, rfl⟩
    have hkids : ((kids.take (c + 1)).map addrs).flatten ++ ((kids.drop (c + 1)).map addrs).flatten
        = (kids.map addrs).flatten := by rw [← flatten_append, ← map_append, take_append_drop]
    calc
      Perm _ (b :: (a :: ((kids.take (c + 1)).map addrs).flatten ++
          ((kids.drop (c + 1)).map addrs).flatten)) := perm_middle
      Perm _ (b :: (branch a ks kids).addrs) := by rw [cons_append, hkids, addrs_branch]

theorem Rep.takeHalf (hf : Footed shows H t) (hcell : H'.cell t.addr = some n)
    (hshows : shows n (bottom h) (t.keys.take c) (t.kidAddrs.take (c + 1)))
    (hother : ∀ a ∈ t.addrs, a ≠ t.addr → H'.cell a = H.cell a) : Rep shows H' (takeHalf c t) := by
  cases h with
  | zero => exact ⟨n, hcell, hshows⟩
  | succ h =>
    refine rep_branch.2 ⟨⟨n, hcell, ?_⟩, fun k hk => ?_⟩
    · rwa [map_take]
    · exact hf.kid_congr hother (mem_of_mem_take hk)

theorem Rep.dropHalf (hf : Footed shows H t) (hcell : H'.cell b = some n)
    (hshows : shows n (bottom h) (t.keys.drop (c + 1)) (t.kidAddrs.drop (c + 1)))
    (hother : ∀ a ∈ t.addrs, a ≠ t.addr → H'.cell a = H.cell a) :
    Rep shows H' (dropHalf b c t) := by
  cases h with
  | zero => exact ⟨n, hcell, hshows⟩
  | succ h =>
    refine rep_branch.2 ⟨⟨n, hcell, ?_⟩, fun k hk => ?_⟩
    · rwa [map_drop]
    · exact hf.kid_congr hother (mem_of_mem_drop hk)

/-- A tree in the heap is no deeper than there are addresses. -/
theorem Footed.level_lt_brk (hf : Footed shows H t) (hl : Loaded lo hi t) : h < H.brk :=
  (level_lt_length_addrs hl).trans_le (Heap.length_le_brk hf.nodup hf.rep.allocated)

end SystemsLab.LevelTree
