import SystemsLab.Data.SearchTree

/-!
# The search trees of `bst_isValid.c` and `LowestCommonAncestor.c`

* `insert` — the same function in both files;
* `isBST` — the test with exclusive bounds, which start at the ends of the range of `int`;
  `isBST_exact_iff` says that it is exact but for increasing trees with one of these two values;
* `lca` — the descent to the lowest common ancestor; `lca_is_lowest` says that it finds it.
-/

namespace SystemsLab.BinarySearch

open SearchTree List

/-- A node with its two subtrees; `null` is the empty tree. -/
abbrev Node := SearchTree Int Unit

def createNode (val : Int) : Node := node null val () null

def insert : Node → Int → Node
  | null, val => createNode val
  | node left data _ right, val =>
    if val < data then node (insert left val) data () right
    else if val > data then node left data () (insert right val)
    else node left data () right

def build (vals : List Int) : Node := vals.foldl insert null

def INT_MIN : Int := -2147483648
def INT_MAX : Int := 2147483647

/-- `isBstUtils`; true for 1. -/
def isBstUtils : Node → Int → Int → Bool
  | null, _, _ => true
  | node left data _ right, min, max =>
    if data ≤ min || data ≥ max then false else isBstUtils left min data && isBstUtils
      right data max

def isBST (root : Node) : Bool := isBstUtils root INT_MIN INT_MAX

/-- `LCA` returns the node it stops at. -/
def lca : Node → Int → Int → Node
  | null, _, _ => null
  | node left data _ right, a, b =>
    if a < data && b < data then lca left a b
    else if a > data && b > data then lca right a b
    else node left data () right

variable {t : Node} {x val : Int} {vals : List Int}

theorem mem_insert : x ∈ (insert t val).keys ↔ x = val ∨ x ∈ t.keys := by
  induction t with
  | null => simp [insert, createNode]
  | node left data info right ihl ihr =>
    simp only [insert]
    split_ifs <;> grind [keys_node]

theorem insert_ordered (h : t.Ordered) : (insert t val).Ordered := by
  induction t with
  | null => simp [insert, createNode, Ordered]
  | node left data info right ihl ihr =>
    rcases ordered_node.1 h with ⟨hl, hr, hlt, hgt⟩
    simp only [insert]
    split_ifs with hless hmore
    · exact ordered_node.2 ⟨ihl hl, hr, by grind [mem_insert], hgt⟩
    · exact ordered_node.2 ⟨hl, ihr hr, hlt, by grind [mem_insert]⟩
    · exact h

theorem build_spec (vals : List Int) : (build vals).Ordered ∧ ∀ x, x ∈ (build vals).keys ↔
    x ∈ vals := by
  induction vals using List.reverseRecOn with
  | nil => simp [build]
  | append_singleton vals val ih =>
    rw [build, foldl_append]
    refine ⟨insert_ordered ih.1, fun x => ?_⟩
    exact mem_insert.trans (by simp [or_comm, ← ih.2 x, build])

/-! ## The test -/

theorem isBstUtils_iff (t : Node) (min max : Int) :
    isBstUtils t min max = true ↔ t.Ordered ∧ ∀ x ∈ t.keys, min < x ∧ x < max := by
  induction t generalizing min max with
  | null => simp [isBstUtils]
  | node left data info right ihl ihr =>
    simp only [isBstUtils, ordered_node, keys_node, mem_append, mem_cons]
    split_ifs with hbounds
    · -- the data itself is outside the bounds
      refine iff_of_false (by decide) fun h => ?_
      have hdata := h.2 data (.inr (.inl rfl))
      grind
    · grind

/-- The test is right about a tree exactly if the tree, should its traversal be strictly increasing,
has neither end of the range of `int`; of the trees that `insert` builds it accepts those without
these two values. -/
theorem isBST_exact_iff (t : Node) (vals : List Int) : ((isBST t = true ↔ t.keys.Pairwise (· < ·)) ↔
        (t.keys.Pairwise (· < ·) → ∀ x ∈ t.keys, INT_MIN < x ∧ x < INT_MAX)) ∧
      (isBST (build vals) = true ↔ ∀ x ∈ vals, INT_MIN < x ∧ x < INT_MAX) := by
  constructor
  · have htest : isBST t = true ↔
      t.keys.Pairwise (· < ·) ∧ ∀ x ∈ t.keys, INT_MIN < x ∧ x < INT_MAX :=
      isBstUtils_iff t INT_MIN INT_MAX
    rw [htest]
    exact ⟨fun h hincreasing => (h.2 hincreasing).2,
      fun h => ⟨And.left, fun hincreasing => ⟨hincreasing, h hincreasing⟩⟩⟩
  · rcases build_spec vals with ⟨hordered, hmem⟩
    rw [isBST, isBstUtils_iff]
    simp [hordered, hmem]

/-- A single node with the largest `int`. -/
theorem largest_int_is_refused :
    isBST (build [INT_MAX]) = false ∧ (build [INT_MAX]).keys.Pairwise (· < ·) := by decide

/-! ## Ancestors -/

def subtrees : Node → List Node
  | null => [null]
  | node left data info right => node left data info right :: (subtrees left ++ subtrees right)

/-- The subtree of the node has both values, and those of its children do not. -/
def IsLowest (a b : Int) : Node → Prop
  | null => False
  | node left data _ right =>
    (a ∈ left.keys ∨ a = data ∨ a ∈ right.keys) ∧ (b ∈ left.keys ∨ b = data ∨ b ∈ right.keys) ∧
      ¬(a ∈ left.keys ∧ b ∈ left.keys) ∧ ¬(a ∈ right.keys ∧ b ∈ right.keys)

variable {s : Node} {a b : Int}

theorem keys_of_subtree (h : s ∈ subtrees t) : s.keys ⊆ t.keys := by
  induction t with
  | null =>
    rw [mem_singleton.1 h]
    exact Subset.refl _
  | node left data info right ihl ihr =>
    rcases mem_cons.1 h with rfl | h
    · exact Subset.refl _
    · rcases mem_append.1 h with h | h
      · exact fun x hx => mem_append_left _ (ihl h hx)
      · exact fun x hx => mem_append_right _ (mem_cons_of_mem _ (ihr h hx))

theorem IsLowest.mem_keys (h : IsLowest a b s) : a ∈ s.keys ∧ b ∈ s.keys := by
  cases s with
  | null => exact h.elim
  | node left data info right => simpa using ⟨h.1, h.2.1⟩

theorem lca_spec (h : t.Ordered) (ha : a ∈ t.keys) (hb : b ∈ t.keys) :
    lca t a b ∈ subtrees t ∧ IsLowest a b (lca t a b) ∧ ∀ s ∈ subtrees t, IsLowest a b s →
      s = lca t a b := by
  induction t with
  | null => cases ha
  | node left data info right ihl ihr =>
    rcases ordered_node.1 h with ⟨hl, hr, hlt, hgt⟩
    -- a lowest node below a child has both values there
    have hbelow : ∀ {c s : Node}, s ∈ subtrees c → IsLowest a b s → a ∈ c.keys ∧ b ∈ c.keys :=
      fun hs hlow =>
      ⟨keys_of_subtree hs hlow.mem_keys.1, keys_of_subtree hs hlow.mem_keys.2⟩
    simp only [keys_node, mem_append, mem_cons] at ha hb
    simp only [lca, subtrees, mem_cons, mem_append]
    split_ifs with hleft hright
    · have hkeys : a ∈ left.keys ∧ b ∈ left.keys := by grind
      rcases ihl hl hkeys.1 hkeys.2 with ⟨hmem, hlow, hunique⟩
      refine ⟨.inr (.inl hmem), hlow, ?_⟩
      rintro s (rfl | hs | hs) hs'
      · exact absurd hkeys hs'.2.2.1
      · exact hunique s hs hs'
      · grind
    · have hkeys : a ∈ right.keys ∧ b ∈ right.keys := by grind
      rcases ihr hr hkeys.1 hkeys.2 with ⟨hmem, hlow, hunique⟩
      refine ⟨.inr (.inr hmem), hlow, ?_⟩
      rintro s (rfl | hs | hs) hs'
      · exact absurd hkeys hs'.2.2.2
      · grind
      · exact hunique s hs hs'
    · refine ⟨.inl rfl, ⟨ha, hb, by grind, by grind⟩, ?_⟩
      rintro s (rfl | hs | hs) hs'
      · rfl
      · grind
      · grind

/-- For two values of a tree that is built by `insert`, `LCA` returns the one node whose subtree has
both values and whose children's subtrees do not. -/
theorem lca_is_lowest (vals : List Int) (a b : Int) (ha : a ∈ (build vals).keys)
    (hb : b ∈ (build vals).keys) :
    lca (build vals) a b ∈ subtrees (build vals) ∧ IsLowest a b (lca (build vals) a b) ∧
      ∀ s ∈ subtrees (build vals), IsLowest a b s → s = lca (build vals) a b :=
  lca_spec (build_spec vals).1 ha hb

/-- The tree of `main`. -/
theorem lca_is_lowest_demo : lca (build [10, 5, 20, 15, 30]) 15 30 = node (createNode 15) 20 ()
    (createNode 30) ∧ IsLowest 15 30 (lca (build [10, 5, 20, 15, 30]) 15 30) :=
  ⟨by decide, (lca_is_lowest [10, 5, 20, 15, 30] 15 30 (by decide) (by decide)).2.1⟩

end SystemsLab.BinarySearch
