import Mathlib.Data.Nat.Fib.Basic
import SystemsLab.Data.CallSequence
import SystemsLab.Data.SearchTree

/-!
# The height-balanced tree of `avl-tree.c`

A tree is a `SearchTree` whose annotation is the stored `height` field; `NULL` is `null`.  The C
functions relink nodes that only one parent points to, so each of them is a function from the old
tree to the new one.  A result `none` is a `NULL` dereference.

A stored height tells whether a child exists, whatever the balance is.  The rotations of
`deleteNode` are therefore safe on every tree with right heights, and they leave right heights.
-/

namespace SystemsLab.Avl

open SearchTree CallSequence

/-- `Node *`, with the stored height as annotation. -/
abbrev Node := SearchTree Int Int

def height : Node → Int
  | null => 0
  | node _ _ h _ => h

def keyOf : Node → Option Int
  | null => none
  | node _ key _ _ => some key

def createNode (key : Int) : Node := node null key 1 null

/-- `rightRotate`, which reads `y->left->right`. -/
def rightRotate : Node → Option Node
  | node (node xl xkey _ T2) ykey _ yr =>
    let y := node T2 ykey (max (height T2) (height yr) + 1) yr
    some (node xl xkey (max (height xl) (height y) + 1) y)
  | _ => none

/-- `leftRotate`, which reads `x->right->left`. -/
def leftRotate : Node → Option Node
  | node xl xkey _ (node T2 ykey _ yr) =>
    let x := node xl xkey (max (height xl) (height T2) + 1) T2
    some (node x ykey (max (height x) (height yr) + 1) yr)
  | _ => none

def getBalanceFactor : Node → Int
  | null => 0
  | node left _ _ right => height left - height right

def leftRightRotate (left : Node) (key h : Int) (right : Node) : Option Node :=
  (leftRotate left).bind fun left' => rightRotate (node left' key h right)

def rightLeftRotate (left : Node) (key h : Int) (right : Node) : Option Node :=
  (rightRotate right).bind fun right' => leftRotate (node left key h right')

/-- The end of `insert`: the height is updated and the rotation is chosen by comparing the inserted
key with the key of the higher child. -/
def rebalanceInsert (left : Node) (nkey : Int) (right : Node) (key : Int) : Option Node :=
  let h := 1 + max (height left) (height right)
  let balance := height left - height right
  if balance > 1 then
    (keyOf left).bind fun lkey =>
      if key < lkey then rightRotate (node left nkey h right)
      else if key > lkey then leftRightRotate left nkey h right
      else some (node left nkey h right)
  else if balance < -1 then
    (keyOf right).bind fun rkey =>
      if key > rkey then leftRotate (node left nkey h right)
      else if key < rkey then rightLeftRotate left nkey h right
      else some (node left nkey h right)
  else some (node left nkey h right)

def insert : Node → Int → Option Node
  | null, key => some (createNode key)
  | node left nkey h right, key =>
    if key < nkey then
      (insert left key).bind fun left' => rebalanceInsert left' nkey right key
    else if key > nkey then
      (insert right key).bind fun right' => rebalanceInsert left nkey right' key
    else some (node left nkey h right)

/-- `search` returns the node it stops at. -/
def search : Node → Int → Node
  | null, _ => null
  | node left nkey h right, key =>
    if nkey = key then node left nkey h right
    else if key < nkey then search left key
    else search right key

/-- `minimumValueNode` follows `left`, which it reads from `node` on. -/
def minimumValueNode : Node → Option Node
  | null => none
  | node null key h right => some (node null key h right)
  | node (node ll lkey lh lr) _ _ _ => minimumValueNode (node ll lkey lh lr)

/-- The end of `deleteNode`: the rotation is chosen by the balance factor of the higher child. -/
def rebalanceDelete (left : Node) (nkey : Int) (right : Node) : Option Node :=
  let h := 1 + max (height left) (height right)
  let balance := height left - height right
  if balance > 1 then
    if getBalanceFactor left ≥ 0 then rightRotate (node left nkey h right)
    else leftRightRotate left nkey h right
  else if balance < -1 then
    if getBalanceFactor right ≤ 0 then leftRotate (node left nkey h right)
    else rightLeftRotate left nkey h right
  else some (node left nkey h right)

def deleteNode : Node → Int → Option Node
  | null, _ => some null
  | node left nkey _ right, key =>
    if key < nkey then
      (deleteNode left key).bind fun left' => rebalanceDelete left' nkey right
    else if key > nkey then
      (deleteNode right key).bind fun right' => rebalanceDelete left nkey right'
    else
      match left, right with
      | null, null => some null
      -- one child: `*root = *temp`, and the rest of the function runs on the copied node
      | node ll lkey _ lr, null => rebalanceDelete ll lkey lr
      | null, node rl rkey _ rr => rebalanceDelete rl rkey rr
      | node _ _ _ _, node _ _ _ _ =>
        ((minimumValueNode right).bind keyOf).bind fun tempKey =>
          (deleteNode right tempKey).bind fun right' => rebalanceDelete left tempKey right'

/-- One call on the tree held in `root`. -/
def call (root : Node) : SetCall Int → Option Node
  | .insert key => insert root key
  | .delete key => deleteNode root key

def run (calls : List (SetCall Int)) : Option Node := runCalls call null calls

/-! ## Stored heights are real and subtrees stay balanced -/

open Option

/-- Every stored height is one more than the larger real height of the two subtrees. -/
def StoredHeights : Node → Prop
  | null => True
  | node left _ h right =>
    StoredHeights left ∧ StoredHeights right ∧ h = 1 + max left.realHeight right.realHeight

/-- The real heights of the two subtrees of every node differ by at most one. -/
def Balanced : Node → Prop
  | null => True
  | node left _ _ right =>
    Balanced left ∧ Balanced right ∧
      left.realHeight ≤ right.realHeight + 1 ∧ right.realHeight ≤ left.realHeight + 1

structure Valid (t : Node) : Prop where
  stored : StoredHeights t
  balanced : Balanced t

variable {t ll lr rl rr : Node} {key h lkey lh rkey rh : Int}

theorem height_eq (h : StoredHeights t) : height t = t.realHeight := by
  cases t with
  | null => rfl
  | node left key ht right =>
    rcases h with ⟨-, -, rfl⟩
    simp only [height, realHeight_node]
    omega

theorem Valid.height_eq (h : Valid t) : height t = t.realHeight := Avl.height_eq h.stored

theorem valid_null : Valid null := ⟨trivial, trivial⟩

theorem Valid.left (hv : Valid (node ll key h lr)) : Valid ll := ⟨hv.stored.1, hv.balanced.1⟩

theorem Valid.right (hv : Valid (node rl key h rr)) : Valid rr := ⟨hv.stored.2.1, hv.balanced.2.1⟩

variable {left right : Node}

/-- A node over two valid subtrees is valid when its height field has been updated and the subtrees
differ by at most one. -/
theorem Valid.mkNode (hl : Valid left) (hr : Valid right) (key : Int)
    (hh : h = 1 + max (height left) (height right))
    (hlr : left.realHeight ≤ right.realHeight + 1) (hrl : right.realHeight ≤ left.realHeight + 1) :
    Valid (node left key h right) := by
  rw [hl.height_eq, hr.height_eq] at hh
  exact ⟨⟨hl.stored, hr.stored, by omega⟩, hl.balanced, hr.balanced, hlr, hrl⟩

theorem Valid.differ (hv : Valid (node left key h right)) :
    left.realHeight ≤ right.realHeight + 1 ∧ right.realHeight ≤ left.realHeight + 1 :=
  hv.balanced.2.2

theorem Valid.height_sub (hl : Valid left) (hr : Valid right) :
    height left - height right = left.realHeight - right.realHeight := by
  rw [hl.height_eq, hr.height_eq]

/-! ## Rotations -/

/-- A single right rotation repairs a left subtree that is two higher and does not lean right. -/
theorem rightRotate_valid (key h : Int) (hl : Valid (node ll lkey lh lr)) (hr : Valid right)
    (htwo : (node ll lkey lh lr).realHeight = right.realHeight + 2)
    (hlean : lr.realHeight ≤ ll.realHeight) :
    ∃ t, rightRotate (node (node ll lkey lh lr) key h right) = some t ∧ Valid t ∧
      t.realHeight = lr.realHeight + 2 := by
  have hdiffer := hl.differ
  rw [realHeight_node] at htwo
  have hy := hl.right.mkNode hr key (add_comm _ _) (by omega) (by omega)
  refine ⟨_, rfl, hl.left.mkNode hy lkey (add_comm _ _) ?_ ?_, ?_⟩
  all_goals
    simp only [realHeight_node]
    omega

theorem leftRotate_valid (key h : Int) (hl : Valid left) (hr : Valid (node rl rkey rh rr))
    (htwo : (node rl rkey rh rr).realHeight = left.realHeight + 2)
    (hlean : rl.realHeight ≤ rr.realHeight) :
    ∃ t, leftRotate (node left key h (node rl rkey rh rr)) = some t ∧ Valid t ∧
      t.realHeight = rl.realHeight + 2 := by
  have hdiffer := hr.differ
  rw [realHeight_node] at htwo
  have hx := hl.mkNode hr.left key (add_comm _ _) (by omega) (by omega)
  refine ⟨_, rfl, hx.mkNode hr.right rkey (add_comm _ _) ?_ ?_, ?_⟩
  all_goals
    simp only [realHeight_node]
    omega

/-- The double rotation repairs a left subtree that is two higher and leans right. -/
theorem leftRightRotate_valid (key h : Int) (hl : Valid (node ll lkey lh lr)) (hr : Valid right)
    (htwo : (node ll lkey lh lr).realHeight = right.realHeight + 2)
    (hlean : lr.realHeight = ll.realHeight + 1) :
    ∃ t, leftRightRotate (node ll lkey lh lr) key h right = some t ∧ Valid t ∧
      t.realHeight = right.realHeight + 2 := by
  rcases exists_node_of_realHeight_pos (t := lr) (by omega) with ⟨ml, mkey, mh, mr, rfl⟩
  have hm := hl.right
  have hdiffer := hm.differ
  simp only [realHeight_node] at htwo hlean
  have hx := hl.left.mkNode hm.left lkey (add_comm _ _) (by omega) (by omega)
  have hy := hm.right.mkNode hr key (add_comm _ _) (by omega) (by omega)
  refine ⟨_, rfl, hx.mkNode hy mkey (add_comm _ _) ?_ ?_, ?_⟩
  all_goals
    simp only [realHeight_node]
    omega

theorem rightLeftRotate_valid (key h : Int) (hl : Valid left) (hr : Valid (node rl rkey rh rr))
    (htwo : (node rl rkey rh rr).realHeight = left.realHeight + 2)
    (hlean : rl.realHeight = rr.realHeight + 1) :
    ∃ t, rightLeftRotate left key h (node rl rkey rh rr) = some t ∧ Valid t ∧
      t.realHeight = left.realHeight + 2 := by
  rcases exists_node_of_realHeight_pos (t := rl) (by omega) with ⟨ml, mkey, mh, mr, rfl⟩
  have hm := hr.left
  have hdiffer := hm.differ
  simp only [realHeight_node] at htwo hlean
  have hx := hl.mkNode hm.left key (add_comm _ _) (by omega) (by omega)
  have hy := hm.right.mkNode hr.right rkey (add_comm _ _) (by omega) (by omega)
  refine ⟨_, rfl, hx.mkNode hy mkey (add_comm _ _) ?_ ?_, ?_⟩
  all_goals
    simp only [realHeight_node]
    omega

/-! ## Insertion -/

/-- The subtree on the side of `key` is the higher one. -/
def LeansTo (key : Int) : Node → Prop
  | null => False
  | node left nkey _ right =>
    (key < nkey ∧ left.realHeight = right.realHeight + 1) ∨
      (nkey < key ∧ right.realHeight = left.realHeight + 1)

theorem rebalanceInsert_balanced (hl : Valid left) (hr : Valid right)
    (hlr : left.realHeight ≤ right.realHeight + 1) (hrl : right.realHeight ≤ left.realHeight + 1)
    (nkey key : Int) :
    rebalanceInsert left nkey right key =
      some (node left nkey (1 + max (height left) (height right)) right) ∧
      Valid (node left nkey (1 + max (height left) (height right)) right) := by
  refine ⟨?_, hl.mkNode hr nkey rfl hlr hrl⟩
  simp only [rebalanceInsert, hl.height_sub hr]
  rw [if_neg (by omega), if_neg (by omega)]

/-- The repair of a left subtree that grew to be two higher.  The key tells the side to which it
leans, because the last insertion made it lean. -/
theorem rebalanceInsert_left (hl : Valid left) (hr : Valid right)
    (htwo : left.realHeight = right.realHeight + 2) (hlean : LeansTo key left) (nkey : Int) :
    ∃ t, rebalanceInsert left nkey right key = some t ∧ Valid t ∧
      t.realHeight = right.realHeight + 2 := by
  cases left with
  | null => exact hlean.elim
  | node ll lkey lh lr =>
    have hht := htwo
    rw [realHeight_node] at hht
    simp only [rebalanceInsert, hl.height_sub hr, keyOf, bind_some]
    rw [if_pos (by omega)]
    rcases hlean with ⟨hlt, hlean⟩ | ⟨hlt, hlean⟩
    · rw [if_pos hlt]
      rcases rightRotate_valid nkey _ hl hr htwo (by omega) with ⟨t, ht, hv, hh⟩
      exact ⟨t, ht, hv, by omega⟩
    · rw [if_neg (by omega), if_pos hlt]
      exact leftRightRotate_valid nkey _ hl hr htwo hlean

theorem rebalanceInsert_right (hl : Valid left) (hr : Valid right)
    (htwo : right.realHeight = left.realHeight + 2) (hlean : LeansTo key right) (nkey : Int) :
    ∃ t, rebalanceInsert left nkey right key = some t ∧ Valid t ∧
      t.realHeight = left.realHeight + 2 := by
  cases right with
  | null => exact hlean.elim
  | node rl rkey rh rr =>
    have hht := htwo
    rw [realHeight_node] at hht
    simp only [rebalanceInsert, hl.height_sub hr, keyOf, bind_some]
    rw [if_neg (by omega), if_pos (by omega)]
    rcases hlean with ⟨hlt, hlean⟩ | ⟨hlt, hlean⟩
    · rw [if_neg (by omega), if_pos hlt]
      exact rightLeftRotate_valid nkey _ hl hr htwo hlean
    · rw [if_pos hlt]
      rcases leftRotate_valid nkey _ hl hr htwo (by omega) with ⟨t, ht, hv, hh⟩
      exact ⟨t, ht, hv, by omega⟩

/-- `insert` never fails and keeps the tree valid.  The tree grows by at most one, and when it grows
it is a new leaf or it leans to the side of the key. -/
theorem insert_valid (key : Int) (hv : Valid t) : ∃ t', insert t key = some t' ∧ Valid t' ∧
      (t'.realHeight = t.realHeight ∨
        t'.realHeight = t.realHeight + 1 ∧ (t'.realHeight = 1 ∨ LeansTo key t')) := by
  induction t with
  | null =>
    refine ⟨createNode key, rfl, ?_, .inr ⟨rfl, .inl rfl⟩⟩
    exact valid_null.mkNode valid_null key rfl (by simp) (by simp)
  | node left nkey h right ihl ihr =>
    have hdiffer := hv.differ
    rcases lt_trichotomy key nkey with hlt | rfl | hgt
    · rcases ihl hv.left with ⟨left', hins, hl', hgrow⟩
      simp only [insert, if_pos hlt, hins, realHeight_node]
      by_cases htwo : left'.realHeight ≤ right.realHeight + 1
      · rcases rebalanceInsert_balanced hl' hv.right htwo (by omega) nkey key with ⟨heq, hv'⟩
        refine ⟨_, heq, hv', ?_⟩
        simp only [realHeight_node, LeansTo]
        omega
      · -- the left subtree grew and was already the higher one
        have hlean : LeansTo key left' :=
          (hgrow.resolve_left (by omega)).2.resolve_left (by omega)
        rcases rebalanceInsert_left hl' hv.right (by omega) hlean nkey with ⟨t', heq, hv', hh⟩
        exact ⟨t', heq, hv', .inl (by omega)⟩
    · refine ⟨node left key h right, ?_, hv, .inl rfl⟩
      simp [insert]
    · rcases ihr hv.right with ⟨right', hins, hr', hgrow⟩
      simp only [insert, if_neg hgt.not_gt, if_pos hgt, hins, realHeight_node]
      by_cases htwo : right'.realHeight ≤ left.realHeight + 1
      · rcases rebalanceInsert_balanced hv.left hr' (by omega) htwo nkey key with ⟨heq, hv'⟩
        refine ⟨_, heq, hv', ?_⟩
        simp only [realHeight_node, LeansTo]
        omega
      · have hlean : LeansTo key right' :=
          (hgrow.resolve_left (by omega)).2.resolve_left (by omega)
        rcases rebalanceInsert_right hv.left hr' (by omega) hlean nkey with ⟨t', heq, hv', hh⟩
        exact ⟨t', heq, hv', .inl (by omega)⟩

/-! ## Deletion -/

/-- The repair of a left subtree that is too high.  It may be evenly balanced itself; then the
single rotation leaves the height as it was. -/
theorem rebalanceDelete_left (hl : Valid left) (hr : Valid right)
    (htwo : left.realHeight = right.realHeight + 2) (nkey : Int) :
    ∃ t, rebalanceDelete left nkey right = some t ∧ Valid t ∧
      left.realHeight ≤ t.realHeight ∧ t.realHeight ≤ left.realHeight + 1 := by
  rcases exists_node_of_realHeight_pos (t := left) (by omega) with ⟨ll, lkey, lh, lr, rfl⟩
  have hdiffer := hl.differ
  have hht := htwo
  rw [realHeight_node] at hht
  simp only [rebalanceDelete, hl.height_sub hr, getBalanceFactor, hl.left.height_sub hl.right]
  rw [if_pos (by omega)]
  split
  · rcases rightRotate_valid nkey _ hl hr htwo (by omega) with ⟨t, ht, hv, hh⟩
    exact ⟨t, ht, hv, by omega, by omega⟩
  · rcases leftRightRotate_valid nkey _ hl hr htwo (by omega) with ⟨t, ht, hv, hh⟩
    exact ⟨t, ht, hv, by omega, by omega⟩

theorem rebalanceDelete_right (hl : Valid left) (hr : Valid right)
    (htwo : right.realHeight = left.realHeight + 2) (nkey : Int) :
    ∃ t, rebalanceDelete left nkey right = some t ∧ Valid t ∧
      right.realHeight ≤ t.realHeight ∧ t.realHeight ≤ right.realHeight + 1 := by
  rcases exists_node_of_realHeight_pos (t := right) (by omega) with ⟨rl, rkey, rh, rr, rfl⟩
  have hdiffer := hr.differ
  have hht := htwo
  rw [realHeight_node] at hht
  simp only [rebalanceDelete, hl.height_sub hr, getBalanceFactor, hr.left.height_sub hr.right]
  rw [if_neg (by omega), if_pos (by omega)]
  split
  · rcases leftRotate_valid nkey _ hl hr htwo (by omega) with ⟨t, ht, hv, hh⟩
    exact ⟨t, ht, hv, by omega, by omega⟩
  · rcases rightLeftRotate_valid nkey _ hl hr htwo (by omega) with ⟨t, ht, hv, hh⟩
    exact ⟨t, ht, hv, by omega, by omega⟩

theorem rebalanceDelete_balanced (hl : Valid left) (hr : Valid right)
    (hlr : left.realHeight ≤ right.realHeight + 1) (hrl : right.realHeight ≤ left.realHeight + 1)
    (nkey : Int) :
    ∃ t, rebalanceDelete left nkey right = some t ∧ Valid t ∧
      t.realHeight = max left.realHeight right.realHeight + 1 := by
  refine ⟨_, ?_, hl.mkNode hr nkey rfl hlr hrl, realHeight_node ..⟩
  simp only [rebalanceDelete, hl.height_sub hr]
  rw [if_neg (by omega), if_neg (by omega)]

/-- One repair after a deletion, from subtrees that differ by at most two. -/
theorem rebalanceDelete_valid (hl : Valid left) (hr : Valid right)
    (hlr : left.realHeight ≤ right.realHeight + 2) (hrl : right.realHeight ≤ left.realHeight + 2)
    (nkey : Int) :
    ∃ t, rebalanceDelete left nkey right = some t ∧ Valid t ∧
      max left.realHeight right.realHeight ≤ t.realHeight ∧
      t.realHeight ≤ max left.realHeight right.realHeight + 1 ∧
      (left.realHeight ≤ right.realHeight + 1 → right.realHeight ≤ left.realHeight + 1 →
        t.realHeight = max left.realHeight right.realHeight + 1) := by
  by_cases hleft : left.realHeight = right.realHeight + 2
  · rcases rebalanceDelete_left hl hr hleft nkey with ⟨t, ht, hv, hle, hge⟩
    exact ⟨t, ht, hv, by omega, by omega, by omega⟩
  · by_cases hright : right.realHeight = left.realHeight + 2
    · rcases rebalanceDelete_right hl hr hright nkey with ⟨t, ht, hv, hle, hge⟩
      exact ⟨t, ht, hv, by omega, by omega, by omega⟩
    · rcases rebalanceDelete_balanced hl hr (by omega) (by omega) nkey with ⟨t, ht, hv, hh⟩
      exact ⟨t, ht, hv, by omega, by omega, fun _ _ => hh⟩

theorem rebalanceDelete_root (hv : Valid (node left key h right)) :
    ∃ t, rebalanceDelete left key right = some t ∧ Valid t ∧
      t.realHeight = (node left key h right).realHeight := by
  rcases rebalanceDelete_balanced hv.left hv.right hv.differ.1 hv.differ.2 key with ⟨t, ht, hv', hh⟩
  refine ⟨t, ht, hv', ?_⟩
  rw [realHeight_node]
  omega

theorem exists_minimumKey (left right : Node) (key h : Int) :
    ∃ m, (minimumValueNode (node left key h right)).bind keyOf = some m := by
  induction left generalizing key h right with
  | null => exact ⟨key, rfl⟩
  | node ll lkey lh lr ihl _ => exact ihl lr lkey lh

/-- A deletion below a node is followed by the repair of the node, which may have got another key.
-/
theorem deleteNode_rule {Pre : Node → Prop} {R : Node → Node → Prop}
    (hpre : ∀ {l k h r}, Pre (node l k h r) → Pre l ∧ Pre r) (hnull : R null null)
    (hleaf : ∀ {k h}, R (node null k h null) null)
    (honly : ∀ {l k h r}, Pre (node l k h r) → ∃ t', rebalanceDelete l k r = some t' ∧
      ∀ k' h', R (node (node l k h r) k' h' null) t' ∧ R (node null k' h' (node l k h r)) t')
    (hleft : ∀ {l l' k h r}, Pre (node l k h r) → R l l' →
      ∃ t', rebalanceDelete l' k r = some t' ∧ R (node l k h r) t')
    (hright : ∀ {l r r' k h}, Pre (node l k h r) → R r r' →
      ∀ m, ∃ t', rebalanceDelete l m r' = some t' ∧ R (node l k h r) t')
    (hp : Pre t) (key : Int) : ∃ t', deleteNode t key = some t' ∧ R t t' := by
  induction t generalizing key with
  | null => exact ⟨null, rfl, hnull⟩
  | node left nkey h right ihl ihr =>
    rcases hpre hp with ⟨hpl, hpr⟩
    have inRight : ∀ k m, ∃ t', (deleteNode right k).bind (rebalanceDelete left m) = some t' ∧
        R (node left nkey h right) t' := by
      intro k m
      rcases ihr hpr k with ⟨right', hdel, hr⟩
      rw [hdel]
      exact hright hp hr m
    rcases lt_trichotomy key nkey with hlt | rfl | hgt
    · rcases ihl hpl key with ⟨left', hdel, hl⟩
      simp only [deleteNode, if_pos hlt, hdel]
      exact hleft hp hl
    · simp only [deleteNode, if_neg (lt_irrefl key)]
      cases left with
      | null =>
        cases right with
        | null => exact ⟨null, rfl, hleaf⟩
        | node rl rkey rh rr =>
          rcases honly hpr with ⟨t', heq, hr⟩
          exact ⟨t', heq, (hr key h).2⟩
      | node ll lkey lh lr =>
        cases right with
        | null =>
          rcases honly hpl with ⟨t', heq, hl⟩
          exact ⟨t', heq, (hl key h).1⟩
        | node rl rkey rh rr =>
          rcases exists_minimumKey rl rr rkey rh with ⟨m, hm⟩
          simp only [hm]
          exact inRight m m
    · simp only [deleteNode, if_neg hgt.not_gt, if_pos hgt]
      exact inRight key nkey

theorem deleteNode_valid (hv : Valid t) (key : Int) : ∃ t', deleteNode t key = some t' ∧ Valid t' ∧
      (t'.realHeight = t.realHeight ∨ t'.realHeight + 1 = t.realHeight) := by
  refine deleteNode_rule (R := fun t t' => Valid t' ∧
    (t'.realHeight = t.realHeight ∨ t'.realHeight + 1 = t.realHeight))
    (fun hv => ⟨hv.left, hv.right⟩) ⟨valid_null, .inl rfl⟩ ⟨valid_null, .inr rfl⟩ (fun hv => ?_)
    (fun hv hl => ?_) (fun hv hr m => ?_) hv key
  · rcases rebalanceDelete_root hv with ⟨t', heq, hv', hsame⟩
    simp only [realHeight_node, realHeight_null] at hsame ⊢
    exact ⟨t', heq, fun _ _ => ⟨⟨hv', by omega⟩, hv', by omega⟩⟩
  · have hdiffer := hv.differ
    rcases rebalanceDelete_valid hl.1 hv.right (by omega) (by omega) _
      with ⟨t', heq, hv', hle, hge, hsame⟩
    refine ⟨t', heq, hv', ?_⟩
    rw [realHeight_node]
    omega
  · have hdiffer := hv.differ
    rcases rebalanceDelete_valid hv.left hr.1 (by omega) (by omega) m
      with ⟨t', heq, hv', hle, hge, hsame⟩
    refine ⟨t', heq, hv', ?_⟩
    rw [realHeight_node]
    omega

/-! ## The invariant over whole runs -/

theorem call_valid (hv : Valid t) (c : SetCall Int) : ∃ t', call t c = some t' ∧ Valid t' := by
  cases c with
  | insert key =>
    rcases insert_valid key hv with ⟨t', ht, hv', -⟩
    exact ⟨t', ht, hv'⟩
  | delete key =>
    rcases deleteNode_valid hv key with ⟨t', ht, hv', -⟩
    exact ⟨t', ht, hv'⟩

theorem fib_le_size (h : Balanced t) : Nat.fib (t.realHeight + 2) - 1 ≤ t.size := by
  induction t with
  | null => simp
  | node left key ht right ihl ihr =>
    rcases h with ⟨hl, hr, hlr, hrl⟩
    have hleft := ihl hl
    have hright := ihr hr
    -- one subtree has height `m`, the other at least `m - 1`
    set m := max left.realHeight right.realHeight with hm
    have hsplit : Nat.fib (m + 3) = Nat.fib (m + 1) + Nat.fib (m + 2) := Nat.fib_add_two
    have hsum : Nat.fib (m + 1) + Nat.fib (m + 2) ≤
        Nat.fib (left.realHeight + 2) + Nat.fib (right.realHeight + 2) := by
      rcases le_total left.realHeight right.realHeight with hle | hle
      · have hmono : Nat.fib (m + 1) ≤ Nat.fib (left.realHeight + 2) := Nat.fib_mono (by omega)
        have hmax : m = right.realHeight := by omega
        rw [hmax] at hmono ⊢
        omega
      · have hmono : Nat.fib (m + 1) ≤ Nat.fib (right.realHeight + 2) := Nat.fib_mono (by omega)
        have hmax : m = left.realHeight := by omega
        rw [hmax] at hmono ⊢
        omega
    have hgoal : Nat.fib (m + 1 + 2) - 1 ≤ left.size + right.size + 1 := by
      rw [hsplit]
      omega
    exact hgoal

/-- After any calls from the empty tree: no rotation met a missing child, all stored heights are
real, every node is balanced, and the tree is as full as a height-balanced tree must be. -/
theorem avl_invariant (calls : List (SetCall Int)) :
    ∃ t, run calls = some t ∧ StoredHeights t ∧ Balanced t ∧
      Nat.fib (t.realHeight + 2) - 1 ≤ t.size := by
  rcases runCalls_invariant (fun _ c hv => call_valid hv c) valid_null calls with ⟨t, ht, hv⟩
  exact ⟨t, ht, hv.stored, hv.balanced, fib_le_size hv.balanced⟩

/-! ## Trees that are not balanced -/

variable {left right t : Node} {key h : Int}

@[simp] theorem height_node : height (node left key h right) = h := rfl

theorem height_nonneg (hs : StoredHeights t) : 0 ≤ height t := by
  rw [height_eq hs]
  exact Int.natCast_nonneg _

theorem StoredHeights.mkNode (hl : StoredHeights left) (hr : StoredHeights right) (key : Int) :
    StoredHeights (node left key (max (height left) (height right) + 1) right) := by
  refine ⟨hl, hr, ?_⟩
  rw [height_eq hl, height_eq hr]
  omega

theorem exists_node_of_height_pos (hpos : 0 < height t) : ∃ l k h r, t = node l k h r := by
  cases t with
  | null => exact hpos.false.elim
  | node l k h r => exact ⟨l, k, h, r, rfl⟩

section

variable (hl : StoredHeights left) (hr : StoredHeights right)

include hl hr

theorem stored_of_rightRotate (heq : rightRotate (node left key h right) = some t) :
    StoredHeights t := by
  cases left with
  | null => cases heq
  | node ll lkey lh lr =>
    cases heq
    exact hl.1.mkNode (hl.2.1.mkNode hr key) lkey

theorem stored_of_leftRotate (heq : leftRotate (node left key h right) = some t) :
    StoredHeights t := by
  cases right with
  | null => cases heq
  | node rl rkey rh rr =>
    cases heq
    exact (hl.mkNode hr.1 key).mkNode hr.2.1 rkey

theorem stored_of_leftRightRotate (heq : leftRightRotate left key h right = some t) :
    StoredHeights t := by
  rcases bind_eq_some_iff.1 heq with ⟨left', hleft', hroot⟩
  cases left with
  | null => cases hleft'
  | node ll lkey lh lr =>
    exact stored_of_rightRotate (stored_of_leftRotate hl.1 hl.2.1 hleft') hr hroot

theorem stored_of_rightLeftRotate (heq : rightLeftRotate left key h right = some t) :
    StoredHeights t := by
  rcases bind_eq_some_iff.1 heq with ⟨right', hright', hroot⟩
  cases right with
  | null => cases hright'
  | node rl rkey rh rr =>
    exact stored_of_leftRotate hl (stored_of_rightRotate hr.1 hr.2.1 hright') hroot

/-- The higher child exists, and so does its higher child where a double rotation needs it. -/
theorem rebalanceDelete_stored (key : Int) : ∃ t, rebalanceDelete left key right = some t ∧
    StoredHeights t := by
  have hlpos := height_nonneg hl
  have hrpos := height_nonneg hr
  rw [rebalanceDelete]
  by_cases hleft : height left - height right > 1
  · rcases exists_node_of_height_pos (t := left) (by omega) with ⟨ll, lkey, lh, lr, rfl⟩
    have hll := height_nonneg hl.1
    have hbalance : getBalanceFactor (node ll lkey lh lr) = height ll - height lr := rfl
    simp only [if_pos hleft]
    by_cases hlean : getBalanceFactor (node ll lkey lh lr) ≥ 0
    · rw [if_pos hlean]
      exact ⟨_, rfl, stored_of_rightRotate (h := 0) hl hr rfl⟩
    · rcases exists_node_of_height_pos (t := lr) (by omega) with ⟨ml, mkey, mh, mr, rfl⟩
      rw [if_neg hlean]
      exact ⟨_, rfl, stored_of_leftRightRotate (h := 0) hl hr rfl⟩
  · by_cases hright : height left - height right < -1
    · rcases exists_node_of_height_pos (t := right) (by omega) with ⟨rl, rkey, rh, rr, rfl⟩
      have hrr := height_nonneg hr.2.1
      have hbalance : getBalanceFactor (node rl rkey rh rr) = height rl - height rr := rfl
      simp only [if_neg hleft, if_pos hright]
      by_cases hlean : getBalanceFactor (node rl rkey rh rr) ≤ 0
      · rw [if_pos hlean]
        exact ⟨_, rfl, stored_of_leftRotate (h := 0) hl hr rfl⟩
      · rcases exists_node_of_height_pos (t := rl) (by omega) with ⟨ml, mkey, mh, mr, rfl⟩
        rw [if_neg hlean]
        exact ⟨_, rfl, stored_of_rightLeftRotate (h := 0) hl hr rfl⟩
    · simp only [if_neg hleft, if_neg hright]
      rw [add_comm]
      exact ⟨_, rfl, hl.mkNode hr key⟩

end

theorem deleteNode_stored (hs : StoredHeights t) (key : Int) :
    ∃ t', deleteNode t key = some t' ∧ StoredHeights t' := by
  refine deleteNode_rule (R := fun _ t' => StoredHeights t') (fun hs => ⟨hs.1, hs.2.1⟩) trivial
    trivial (fun hs => ?_)
    (fun hs hl => rebalanceDelete_stored hl hs.2.1 _)
      (fun hs hr => rebalanceDelete_stored hs.1 hr) hs key
  rcases rebalanceDelete_stored hs.1 hs.2.1 _ with ⟨t', heq, ht'⟩
  exact ⟨t', heq, fun _ _ => ⟨ht', ht'⟩⟩

end SystemsLab.Avl
