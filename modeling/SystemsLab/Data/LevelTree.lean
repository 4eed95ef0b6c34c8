import Mathlib.Data.List.Perm.Basic
import Mathlib.Data.List.Sort
import Mathlib.Tactic.Ring

/-!
# Multiway trees with all leaves at one depth

A tree of level `h` has its leaves `h` edges below the root; the level is part of the type, so the
leaves cannot be at different depths.  Nodes have an address and a list of keys, and a branch has a
list of subtrees.

`weave` interleaves the keys of a branch with the contents of its subtrees.  Its lemmas split a
branch at one subtree: `weaveFront` is what lies before it and `weaveBack` what lies behind it.
-/

namespace SystemsLab

open List

structure Leaf (κ : Type) where
  addr : Nat
  keys : List κ

structure Branch (κ τ : Type) where
  addr : Nat
  keys : List κ
  kids : List τ

/-- A tree with its leaves `h` edges below the root. -/
def LevelTree (κ : Type) : Nat → Type
  | 0 => Leaf κ
  | h + 1 => Branch κ (LevelTree κ h)

/-! ## Interleaving -/

section Weave

variable {κ : Type} {K J : List κ} {A B : List (List κ)} {l l' : List κ} {m x key : κ}

/-- The contents of the subtrees with the keys between them. -/
def weave : List κ → List (List κ) → List κ
  | k :: ks, l :: ls => l ++ k :: weave ks ls
  | _, ls => ls.flatten

/-- The subtrees each followed by its key. -/
def weaveFront (K : List κ) (A : List (List κ)) : List κ :=
  (List.zipWith (fun k l => l ++ [k]) K A).flatten

/-- The subtrees each after its key. -/
def weaveBack (J : List κ) (B : List (List κ)) : List κ :=
  (List.zipWith (fun k l => k :: l) J B).flatten

theorem weave_append (hK : K.length = A.length) (J : List κ) (B : List (List κ)) :
    weave (K ++ J) (A ++ B) = weaveFront K A ++ weave J B := by
  induction K generalizing A with
  | nil =>
    cases A with
    | nil => simp [weaveFront]
    | cons l A => cases hK
  | cons k K ih =>
    cases A with
    | nil => cases hK
    | cons l A =>
      have hlen : K.length = A.length := by simpa using hK
      simp only [cons_append, weave, ih hlen]
      simp [weaveFront]

theorem weave_cons (hJ : J.length = B.length) (l : List κ) :
    weave J (l :: B) = l ++ weaveBack J B := by
  induction J generalizing l B with
  | nil =>
    cases B with
    | nil => simp [weave, weaveBack]
    | cons b B => cases hJ
  | cons k J ih =>
    cases B with
    | nil => cases hJ
    | cons b B =>
      have hlen : J.length = B.length := by simpa using hJ
      rw [weave, ih hlen b]
      simp [weaveBack]

theorem weave_split (hK : K.length = A.length) (hJ : J.length = B.length) (l : List κ) :
    weave (K ++ J) (A ++ l :: B) = weaveFront K A ++ (l ++ weaveBack J B) := by
  rw [weave_append hK, weave_cons hJ]

theorem weave_cut (hK : K.length = A.length) (hJ : J.length = B.length) (m : κ) (l l' : List κ) :
    weave (K ++ m :: J) (A ++ l :: l' :: B) = weaveFront K A ++
      (l ++ m :: l' ++ weaveBack J B) := by
  rw [weave_append hK, weave, weave_cons hJ]
  simp

theorem weave_halves {ks : List κ} {l : List (List κ)} {c : Nat}
    (hlen : l.length = ks.length + 1) (hm : ks[c]? = some m) :
    weave (ks.take c) (l.take (c + 1)) ++ m :: weave (ks.drop (c + 1)) (l.drop (c + 1)) =
      weave ks l := by
  induction c generalizing ks l with
  | zero =>
    rcases ks with _ | ⟨k, ks⟩
    · cases hm
    · rcases l with _ | ⟨first, l⟩
      · cases hlen
      · cases hm
        simp [weave]
  | succ c ih =>
    rcases ks with _ | ⟨k, ks⟩
    · cases hm
    · rcases l with _ | ⟨first, l⟩
      · cases hlen
      · have hrest := ih (Nat.succ.inj hlen) (getElem?_cons_succ.symm.trans hm)
        simp only [take_succ_cons, weave, ← hrest]
        simp

variable [LinearOrder κ]

theorem exists_ge_of_mem_weaveFront (hsorted : (weaveFront K A).Pairwise (· ≤ ·))
    (hx : x ∈ weaveFront K A) : ∃ k ∈ K, x ≤ k := by
  induction K generalizing A with
  | nil => simp [weaveFront] at hx
  | cons k K ih =>
    cases A with
    | nil => simp [weaveFront] at hx
    | cons l A =>
      have hcons : weaveFront (k :: K) (l :: A) = l ++ k :: weaveFront K A := by simp [weaveFront]
      rw [hcons] at hsorted hx
      rcases pairwise_append.1 hsorted with ⟨-, hrest, hlk⟩
      rcases mem_append.1 hx with hx | hx
      · exact ⟨k, mem_cons_self, hlk x hx k mem_cons_self⟩
      · rcases mem_cons.1 hx with rfl | hx
        · exact ⟨x, mem_cons_self, le_rfl⟩
        · rcases ih (pairwise_cons.1 hrest).2 hx with ⟨k', hk', hle⟩
          exact ⟨k', mem_cons_of_mem _ hk', hle⟩

theorem exists_le_of_mem_weaveBack (hsorted : (weaveBack J B).Pairwise (· ≤ ·))
    (hx : x ∈ weaveBack J B) : ∃ k ∈ J, k ≤ x := by
  induction J generalizing B with
  | nil => simp [weaveBack] at hx
  | cons k J ih =>
    cases B with
    | nil => simp [weaveBack] at hx
    | cons l B =>
      rcases pairwise_cons.1 hsorted with ⟨hkl, -⟩
      rcases mem_cons.1 hx with rfl | hx
      · exact ⟨x, mem_cons_self, le_rfl⟩
      · exact ⟨k, mem_cons_self, hkl x hx⟩

/-- A key strictly between the keys around a place can only stand at that place. -/
theorem mem_weave_split (hK : K.length = A.length) (hJ : J.length = B.length)
    (hsorted : (weaveFront K A ++ (l ++ weaveBack J B)).Pairwise (· ≤ ·))
    (hlow : ∀ k ∈ K, k < key) (hhigh : ∀ k ∈ J, key < k) :
    key ∈ weave (K ++ J) (A ++ l :: B) ↔ key ∈ l := by
  rw [weave_split hK hJ, mem_append, mem_append]
  rcases pairwise_append.1 hsorted with ⟨hF, hrest, -⟩
  rcases pairwise_append.1 hrest with ⟨-, hG, -⟩
  constructor
  · rintro (hfront | hl | hback)
    · rcases exists_ge_of_mem_weaveFront hF hfront with ⟨k, hk, hle⟩
      exact absurd (hlow k hk) (not_lt.2 hle)
    · exact hl
    · rcases exists_le_of_mem_weaveBack hG hback with ⟨k, hk, hle⟩
      exact absurd (hhigh k hk) (not_lt.2 hle)
  · intro hl
    exact .inr (.inl hl)

theorem sorted_replace (hsorted : (weaveFront K A ++ (l ++ weaveBack J B)).Pairwise (· ≤ ·))
    (hl' : l'.Pairwise (· ≤ ·)) (hmem : ∀ x ∈ l', x = key ∨ x ∈ l) (hK : ∀ k ∈ K, k ≤ key)
    (hJ : ∀ k ∈ J, key ≤ k) :
    (weaveFront K A ++ (l' ++ weaveBack J B)).Pairwise (· ≤ ·) := by
  rcases pairwise_append.1 hsorted with ⟨hF, hrest, hFrest⟩
  rcases pairwise_append.1 hrest with ⟨-, hG, hlG⟩
  refine pairwise_append.2 ⟨hF, pairwise_append.2 ⟨hl', hG, ?_⟩, ?_⟩
  · intro x hx y hy
    rcases hmem x hx with rfl | hx
    · rcases exists_le_of_mem_weaveBack hG hy with ⟨k, hk, hle⟩
      exact (hJ k hk).trans hle
    · exact hlG x hx y hy
  · intro x hx y hy
    rcases mem_append.1 hy with hy | hy
    · rcases hmem y hy with rfl | hy
      · rcases exists_ge_of_mem_weaveFront hF hx with ⟨k, hk, hle⟩
        exact hle.trans (hK k hk)
      · exact hFrest x hx y (mem_append_left _ hy)
    · exact hFrest x hx y (mem_append_right _ hy)

theorem eq_mergeSort {keys : List κ} (hsorted : l.Pairwise (· ≤ ·)) (hperm : l.Perm keys) :
    l = keys.mergeSort (· ≤ ·) := by
  have hmerge : (keys.mergeSort (· ≤ ·)).Pairwise (· ≤ ·) := pairwise_mergeSort' (· ≤ ·) keys
  apply (hperm.trans (mergeSort_perm keys _).symm).eq_of_pairwise _ hsorted hmerge
  intro a b _ _ hab hba
  exact le_antisymm hab hba

end Weave

/-! ## Trees -/

namespace LevelTree

variable {κ : Type} {h : Nat}

def addr : {h : Nat} → LevelTree κ h → Nat
  | 0, (t : Leaf κ) => t.addr
  | _ + 1, (t : Branch κ _) => t.addr

def keys : {h : Nat} → LevelTree κ h → List κ
  | 0, (t : Leaf κ) => t.keys
  | _ + 1, (t : Branch κ _) => t.keys

def addrs : {h : Nat} → LevelTree κ h → List Nat
  | 0, (t : Leaf κ) => [t.addr]
  | _ + 1, (t : Branch κ _) => t.addr :: (t.kids.map addrs).flatten

/-- All keys of the tree, those of a branch between its subtrees. -/
def inorder : {h : Nat} → LevelTree κ h → List κ
  | 0, (t : Leaf κ) => t.keys
  | _ + 1, (t : Branch κ _) => weave t.keys (t.kids.map inorder)

/-- Every node has between `lo` and `hi` keys, and a branch one subtree more than keys. -/
def Loaded (lo hi : Nat) : {h : Nat} → LevelTree κ h → Prop
  | 0, (t : Leaf κ) => lo ≤ t.keys.length ∧ t.keys.length ≤ hi
  | _ + 1, (t : Branch κ _) =>
    lo ≤ t.keys.length ∧ t.keys.length ≤ hi ∧ t.kids.length = t.keys.length + 1 ∧
      ∀ k ∈ t.kids, Loaded lo hi k

def branch (a : Nat) (keys : List κ) (kids : List (LevelTree κ h)) : LevelTree κ (h + 1) :=
  (⟨a, keys, kids⟩ : Branch κ _)

def leaf (a : Nat) (keys : List κ) : LevelTree κ 0 := (⟨a, keys⟩ : Leaf κ)

section Parts

variable (a : Nat) (ks : List κ) (kids : List (LevelTree κ h))

@[simp] theorem addr_branch : (branch a ks kids).addr = a := rfl

@[simp] theorem keys_branch : (branch a ks kids).keys = ks := rfl

@[simp] theorem addrs_branch : (branch a ks kids).addrs = a :: (kids.map addrs).flatten := rfl

@[simp] theorem inorder_branch : (branch a ks kids).inorder = weave ks (kids.map inorder) := rfl

@[simp] theorem addr_leaf : (leaf a ks).addr = a := rfl

@[simp] theorem keys_leaf : (leaf a ks).keys = ks := rfl

@[simp] theorem addrs_leaf : (leaf a ks).addrs = [a] := rfl

@[simp] theorem inorder_leaf : (leaf a ks).inorder = ks := rfl

end Parts

theorem exists_branch (t : LevelTree κ (h + 1)) : ∃ a ks kids, t = branch a ks kids :=
  ⟨Branch.addr t, Branch.keys t, Branch.kids t, rfl⟩

theorem exists_leaf (t : LevelTree κ 0) : ∃ a ks, t = leaf a ks := ⟨Leaf.addr t, Leaf.keys t, rfl⟩

variable {lo hi : Nat} {ks : List κ} {t : LevelTree κ h} {a : Nat} {kids : List (LevelTree κ h)}

theorem loaded_leaf : Loaded lo hi (leaf a ks) ↔ lo ≤ ks.length ∧ ks.length ≤ hi := Iff.rfl

theorem loaded_branch : Loaded lo hi (branch a ks kids) ↔
      lo ≤ ks.length ∧ ks.length ≤ hi ∧ kids.length = ks.length + 1 ∧ ∀ k ∈ kids,
        Loaded lo hi k := Iff.rfl

theorem exists_split_at {τ : Type} {kids : List τ} {pos : Nat}
    (hlen : kids.length = ks.length + 1) (hpos : pos ≤ ks.length) :
    ∃ A t B, kids = A ++ t :: B ∧ A.length = (ks.take pos).length ∧
      B.length = (ks.drop pos).length := by
  have hlt : pos < kids.length := by omega
  refine ⟨kids.take pos, kids[pos], kids.drop (pos + 1), by simp, ?_, ?_⟩
  · rw [length_take_of_le hlt.le, length_take_of_le hpos]
  · rw [length_drop, length_drop]
    omega

theorem addr_mem_addrs (t : LevelTree κ h) : t.addr ∈ t.addrs := by
  cases h with
  | zero => exact mem_singleton_self _
  | succ h => exact mem_cons_self

theorem mapM_some {α β γ : Type} {f : β → Option γ} {g : α → β} {r : α → γ} (l : List α)
    (h : ∀ x ∈ l, f (g x) = some (r x)) : (l.map g).mapM f = some (l.map r) := by
  induction l with
  | nil => rfl
  | cons x l ih =>
    have hx := h x mem_cons_self
    have hl := ih fun y hy => h y (mem_cons_of_mem _ hy)
    simp [hx, hl]

theorem sublist_weave (ks : List κ) (ls : List (List κ)) (h : ls.length = ks.length + 1) :
    ks.Sublist (weave ks ls) := by
  induction ks generalizing ls with
  | nil => exact nil_sublist _
  | cons k ks ih =>
    cases ls with
    | nil => simp at h
    | cons l ls =>
      have hlen : ls.length = ks.length + 1 := by simpa using h
      exact ((ih ls hlen).cons_cons k).trans (sublist_append_right _ _)

theorem length_weave (ks : List κ) (ls : List (List κ)) (h : ls.length = ks.length + 1) :
    (weave ks ls).length = ks.length + (ls.map length).sum := by
  induction ks generalizing ls with
  | nil => simp [weave]
  | cons k ks ih =>
    cases ls with
    | nil => simp at h
    | cons l ls =>
      have hlen : ls.length = ks.length + 1 := by simpa using h
      simp only [weave, length_append, length_cons, ih ls hlen, map_cons, sum_cons]
      omega

/-- The least content of a tree without empty nodes. -/
theorem pow_le_length_inorder (hl : Loaded 1 hi t) : 2 ^ (h + 1) - 1 ≤ t.inorder.length := by
  induction h with
  | zero => exact hl.1
  | succ h ih =>
    rcases hl with ⟨hlo, -, hkids, hall⟩
    have hsum : ∀ kids : List (LevelTree κ h), (∀ k ∈ kids, Loaded 1 hi k) →
        kids.length * (2 ^ (h + 1) - 1) ≤ ((kids.map inorder).map length).sum := by
      intro kids hkids
      induction kids with
      | nil => simp
      | cons k kids ihk =>
        have hhead := ih (hkids k mem_cons_self)
        have htail := ihk fun k' hk' => hkids k' (mem_cons_of_mem _ hk')
        simp only [length_cons, map_cons, sum_cons, Nat.succ_mul]
        omega
    have htotal : t.inorder.length =
      (Branch.keys t).length + (((Branch.kids t).map inorder).map length).sum :=
      length_weave _ _ (by rw [length_map, hkids])
    have hkidsum := hsum (Branch.kids t) hall
    have htwo : 2 * (2 ^ (h + 1) - 1) ≤ (Branch.kids t).length * (2 ^ (h + 1) - 1) :=
      Nat.mul_le_mul_right _ (by omega)
    omega

theorem level_lt_length_addrs (hl : Loaded lo hi t) : h < t.addrs.length := by
  induction h with
  | zero => exact Nat.one_pos
  | succ h ih =>
    rcases hl with ⟨-, -, hkids, hall⟩
    rcases hk : Branch.kids t with _ | ⟨k, kids⟩
    · rw [hk] at hkids
      simp at hkids
    · have hfirst := ih (hall k (by rw [hk]; exact mem_cons_self))
      have haddrs : t.addrs = (Branch.addr t) :: ((k :: kids).map addrs).flatten := by
        rw [← hk]
        rfl
      rw [haddrs]
      simp only [map_cons, flatten_cons, length_cons, length_append]
      omega

end LevelTree
end SystemsLab
