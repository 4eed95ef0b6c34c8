import Mathlib.Data.Finset.Sort

/-!
# Binary trees by their in-order key list

Nodes carry a key and an annotation (a stored height, a colour with an address).  The content of a
tree is its in-order key list.  A tree is *ordered* when that list is strictly increasing, so a
rotation, which keeps the list, keeps the order for free.
-/

namespace SystemsLab

open List

/-- A binary tree with a key and an annotation at every node. -/
inductive SearchTree (κ α : Type*) where
  | null
  | node (left : SearchTree κ α) (key : κ) (info : α) (right : SearchTree κ α)
  deriving DecidableEq, Repr

namespace SearchTree

variable {κ α : Type*}

def keys : SearchTree κ α → List κ
  | null => []
  | node left key _ right => left.keys ++ key :: right.keys

def size : SearchTree κ α → Nat
  | null => 0
  | node left _ _ right => left.size + right.size + 1

/-- The number of nodes on a longest path to a leaf. -/
def realHeight : SearchTree κ α → Nat
  | null => 0
  | node left _ _ right => max left.realHeight right.realHeight + 1

@[simp] theorem keys_null : (null : SearchTree κ α).keys = [] := rfl

@[simp] theorem keys_node (left right : SearchTree κ α) (key : κ) (info : α) :
    (node left key info right).keys = left.keys ++ key :: right.keys := rfl

@[simp] theorem realHeight_null : (null : SearchTree κ α).realHeight = 0 := rfl

@[simp] theorem realHeight_node (left right : SearchTree κ α) (key : κ) (info : α) :
    (node left key info right).realHeight = max left.realHeight right.realHeight + 1 := rfl

theorem exists_node_of_realHeight_pos {t : SearchTree κ α} (h : 0 < t.realHeight) :
    ∃ left key info right, t = node left key info right := by
  cases t with
  | null => simp at h
  | node left key info right => exact ⟨left, key, info, right, rfl⟩

theorem realHeight_le_size (t : SearchTree κ α) : t.realHeight ≤ t.size := by
  induction t with
  | null => exact le_rfl
  | node left key info right ihl ihr =>
    rw [realHeight_node, size]
    omega

def mapInfo {β : Type*} (f : α → β) : SearchTree κ α → SearchTree κ β
  | null => null
  | node left key info right => node (left.mapInfo f) key (f info) (right.mapInfo f)

variable [LinearOrder κ]

def Ordered (t : SearchTree κ α) : Prop := t.keys.Pairwise (· < ·)

@[simp] theorem ordered_null : (null : SearchTree κ α).Ordered := Pairwise.nil

theorem ordered_node {left right : SearchTree κ α} {key : κ} {info : α} :
    (node left key info right).Ordered ↔
      left.Ordered ∧ right.Ordered ∧ (∀ x ∈ left.keys, x < key) ∧ ∀ x ∈ right.keys, key < x := by
  simp only [Ordered, keys_node, pairwise_append, pairwise_cons, mem_cons]
  constructor
  · rintro ⟨hl, ⟨hkr, hr⟩, hlr⟩
    exact ⟨hl, hr, fun x hx => hlr x hx key (.inl rfl), hkr⟩
  · rintro ⟨hl, hr, hlk, hkr⟩
    refine ⟨hl, ⟨hkr, hr⟩, ?_⟩
    intro x hx y hy
    rcases hy with rfl | hy
    · exact hlk x hx
    · exact (hlk x hx).trans (hkr y hy)

theorem Ordered.mem_left_of_lt {left right : SearchTree κ α} {key x : κ} {info : α}
    (h : (node left key info right).Ordered) (hx : x < key) :
    x ∈ (node left key info right).keys ↔ x ∈ left.keys := by
  rcases ordered_node.1 h with ⟨-, -, -, hkr⟩
  have hne : x ≠ key := hx.ne
  have hright : x ∉ right.keys := fun hmem => lt_asymm hx (hkr x hmem)
  simp [hne, hright]

theorem Ordered.mem_right_of_lt {left right : SearchTree κ α} {key x : κ} {info : α}
    (h : (node left key info right).Ordered) (hx : key < x) :
    x ∈ (node left key info right).keys ↔ x ∈ right.keys := by
  rcases ordered_node.1 h with ⟨-, -, hlk, -⟩
  have hne : x ≠ key := hx.ne'
  have hleft : x ∉ left.keys := fun hmem => lt_asymm hx (hlk x hmem)
  simp [hne, hleft]

theorem Ordered.keys_eq_sort {t : SearchTree κ α} (h : t.Ordered) {S : Finset κ}
    (hS : ∀ x, x ∈ t.keys ↔ x ∈ S) : t.keys = S.sort (· ≤ ·) := by
  have hnodup : t.keys.Nodup := h.imp ne_of_lt
  have hsorted : t.keys.Pairwise (· ≤ ·) := h.imp le_of_lt
  have hset : t.keys.toFinset = S := by
    ext x
    simp [hS]
  rw [← hset]
  exact ((toFinset_sort (· ≤ ·) hnodup).2 hsorted).symm

end SearchTree
end SystemsLab
