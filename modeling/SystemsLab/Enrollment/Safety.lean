import SystemsLab.Avl.Balance
import SystemsLab.CLib.CString

/-!
# `EXTRA_TASK/13-11-2025/student_enrollment_avl.c`

A tree is a `SearchTree` by roll number whose annotation is the name and the stored `height`; `NULL`
is `null`.  The C functions relink nodes that only one parent points to, so each of them is a
function from the old tree to the new one.  A result `none` is a `NULL` dereference.  `malloc` does
not run out of memory, and the messages are left out.

`forget` drops the names and leaves a tree of `avl-tree.c`.  The rotations and `deleteNode` of both
programs are the same then, so what is known about those carries over; the tests of `insert` are
not.

`insert` tests `balance-1` where the balance of a right-heavy node is meant, and `roll<-1` where
`balance<-1` is.  Both tests go on to read `root->right`, whether there is a right child or not, and
they can choose a rotation that the node has no children for.
-/

namespace SystemsLab.Enrollment

open SearchTree CallSequence

abbrev Name := CBuf 20

/-- The fields of a node besides its roll number and its children. -/
structure Info where
  name : Name
  height : Int
  deriving DecidableEq

abbrev Node := SearchTree Int Info

def height : Node → Int
  | null => 0
  | node _ _ info _ => info.height

def rollOf : Node → Option Int
  | null => none
  | node _ rollNo _ _ => some rollNo

def createNode (roll : Int) (name : Name) : Node := node null roll ⟨name, 1⟩ null

/-- `root->height=max(height(root->left),height(root->right))+1;` -/
def setHeight (left : Node) (rollNo : Int) (name : Name) (right : Node) : Node :=
  node left rollNo ⟨name, max (height left) (height right) + 1⟩ right

/-- `leftRotate`, which reads `x->right->left`. -/
def leftRotate : Node → Option Node
  | node xl xroll xinfo (node T2 yroll yinfo yr) =>
    some (setHeight (setHeight xl xroll xinfo.name T2) yroll yinfo.name yr)
  | _ => none

/-- `rightRotate`, which reads `y->left->right`. -/
def rightRotate : Node → Option Node
  | node (node xl xroll xinfo T2) yroll yinfo yr =>
    some (setHeight xl xroll xinfo.name (setHeight T2 yroll yinfo.name yr))
  | _ => none

def getBalance : Node → Int
  | null => 0
  | node left _ _ right => height left - height right

/-- `root->left=leftRotate(root->left); return rightRotate(root);` -/
def leftRightRotate : Node → Option Node
  | null => none
  | node left rollNo info right => (leftRotate left).bind fun left' =>
    rightRotate (node left' rollNo info right)

/-- `root->right=rightRotate(root->right); return leftRotate(root);` -/
def rightLeftRotate : Node → Option Node
  | null => none
  | node left rollNo info right =>
    (rightRotate right).bind fun right' => leftRotate (node left rollNo info right')

/-- A test `cond && p(child->rollNo)`, which reads the child only if the condition holds. -/
def andChild (cond : Bool) (child : Node) (p : Int → Bool) : Option Bool :=
  if cond then (rollOf child).map p else some false

/-- The end of `insert`, with the tests as they are in the source. -/
def rebalanceInsert (left : Node) (rollNo : Int) (name : Name) (right : Node) (roll : Int) :
    Option Node := do
  let root := setHeight left rollNo name right
  let balance := getBalance root
  let test₁ ← andChild (balance > 1) left fun lroll => roll < lroll
  if test₁ then rightRotate root
  else do
    let test₂ ← andChild (balance - 1 ≠ 0) right fun rroll => roll > rroll
    if test₂ then leftRotate root
    else do
      let test₃ ← andChild (balance > 1) left fun lroll => roll > lroll
      if test₃ then leftRightRotate root
      else do
        let test₄ ← andChild (roll < -1) right fun rroll => roll < rroll
        if test₄ then rightLeftRotate root else some root

def insert : Node → Int → Name → Option Node
  | null, roll, name => some (createNode roll name)
  | node left rollNo info right, roll, name =>
    if roll < rollNo then
      (insert left roll name).bind fun left' => rebalanceInsert left' rollNo info.name right roll
    else if roll > rollNo then
      (insert right roll name).bind fun right' => rebalanceInsert left rollNo info.name right' roll
    else some (node left rollNo info right)

/-- `minValueNode` follows `left`, which it reads from `node` on; its roll number and its name. -/
def minValueNode : Node → Option (Int × Name)
  | null => none
  | node null rollNo info _ => some (rollNo, info.name)
  | node (node ll lroll linfo lr) _ _ _ => minValueNode (node ll lroll linfo lr)

def rebalanceDelete (left : Node) (rollNo : Int) (name : Name) (right : Node) : Option Node :=
  let root := setHeight left rollNo name right
  let balance := getBalance root
  if balance > 1 ∧ getBalance left ≥ 0 then rightRotate root
  else if balance < -1 ∧ getBalance right ≤ 0 then leftRotate root
  else if balance > 1 ∧ getBalance left < 0 then leftRightRotate root
  else if balance < -1 ∧ getBalance right > 0 then rightLeftRotate root
  else some root

def deleteNode : Node → Int → Option Node
  | null, _ => some null
  | node left rollNo info right, roll =>
    if roll < rollNo then
      (deleteNode left roll).bind fun left' => rebalanceDelete left' rollNo info.name right
    else if roll > rollNo then
      (deleteNode right roll).bind fun right' => rebalanceDelete left rollNo info.name right'
    else
      match left, right with
      | null, null => some null
      -- one child: `*root=*temp`, and the rest of the function runs on the copied node
      | node ll lroll linfo lr, null => rebalanceDelete ll lroll linfo.name lr
      | null, node rl rroll rinfo rr => rebalanceDelete rl rroll rinfo.name rr
      | node _ _ _ _, node _ _ _ _ =>
        (minValueNode right).bind fun succ =>
          (deleteNode right succ.1).bind fun right' => rebalanceDelete left succ.1 succ.2 right'

inductive EnrollCall where
  | insert (roll : Int) (name : Name)
  | delete (roll : Int)

def call (root : Node) : EnrollCall → Option Node
  | .insert roll name => insert root roll name
  | .delete roll => deleteNode root roll

def run (calls : List EnrollCall) : Option Node := runCalls call null calls

/-! ## As a tree of `avl-tree.c` -/

open Option

def forget (t : Node) : Avl.Node := t.mapInfo Info.height

variable {left right t : Node} {rollNo roll : Int} {name : Name} {info : Info}

@[simp] theorem forget_node :
    forget (node left rollNo info right) = node (forget left) rollNo info.height (forget right) :=
      rfl

@[simp] theorem height_forget (t : Node) : Avl.height (forget t) = height t := by
  cases t with
  | null => rfl
  | node left rollNo info right => rfl

@[simp] theorem getBalance_forget (t : Node) : Avl.getBalanceFactor (forget t) = getBalance t := by
  cases t with
  | null => rfl
  | node left rollNo info right => simp [Avl.getBalanceFactor, getBalance]

@[simp] theorem height_setHeight : height (setHeight left rollNo name right) = max (height left)
    (height right) + 1 :=
  rfl

@[simp] theorem getBalance_setHeight : getBalance (setHeight left rollNo name right) =
    height left - height right :=
  rfl

@[simp] theorem forget_setHeight : forget (setHeight left rollNo name right) =
    node (forget left) rollNo (max (height left) (height right) + 1) (forget right) :=
  rfl

theorem leftRotate_forget (t : Node) : (leftRotate t).map forget = Avl.leftRotate (forget t) := by
  cases t with
  | null => rfl
  | node left rollNo info right =>
    cases right with
    | null => rfl
    | node rl rroll rinfo rr => simp [leftRotate, Avl.leftRotate]

theorem rightRotate_forget (t : Node) :
    (rightRotate t).map forget = Avl.rightRotate (forget t) := by
  cases t with
  | null => rfl
  | node left rollNo info right =>
    cases left with
    | null => rfl
    | node ll lroll linfo lr => simp [rightRotate, Avl.rightRotate]

theorem leftRightRotate_forget : (leftRightRotate (node left rollNo info right)).map forget =
    Avl.leftRightRotate (forget left) rollNo info.height (forget right) := by
  rw [leftRightRotate, Avl.leftRightRotate, ← leftRotate_forget]
  cases leftRotate left with
  | none => rfl
  | some left' => exact rightRotate_forget _

theorem rightLeftRotate_forget : (rightLeftRotate (node left rollNo info right)).map forget =
    Avl.rightLeftRotate (forget left) rollNo info.height (forget right) := by
  rw [rightLeftRotate, Avl.rightLeftRotate, ← rightRotate_forget]
  cases rightRotate right with
  | none => rfl
  | some right' => exact leftRotate_forget _

/-- The four tests of the one program are the nested ones of the other. -/
theorem rebalanceDelete_forget : (rebalanceDelete left rollNo name right).map forget =
    Avl.rebalanceDelete (forget left) rollNo (forget right) := by
  rw [rebalanceDelete, Avl.rebalanceDelete]
  simp only [height_forget, getBalance_forget, getBalance_setHeight, add_comm (1 : Int)]
  by_cases hl : height left - height right > 1
  · have hr : ¬height left - height right < -1 := by omega
    by_cases hlean : getBalance left ≥ 0
    · simp only [hl, hlean]
      exact rightRotate_forget _
    · have hlean' : getBalance left < 0 := not_le.1 hlean
      simp only [hl, hr, hlean, hlean', and_self, if_true, if_false]
      exact leftRightRotate_forget
  · by_cases hr : height left - height right < -1
    · by_cases hlean : getBalance right ≤ 0
      · simp only [hl, hr, hlean, if_true, if_false]
        exact leftRotate_forget _
      · have hlean' : getBalance right > 0 := not_le.1 hlean
        simp only [hl, hr, hlean, hlean', and_self, if_true, if_false]
        exact rightLeftRotate_forget
    · simp [hl, hr]

theorem minValueNode_forget (t : Node) :
    (minValueNode t).map Prod.fst = (Avl.minimumValueNode (forget t)).bind Avl.keyOf := by
  fun_induction minValueNode t with
  | case1 => rfl
  | case2 rollNo info right => rfl
  | case3 rollNo info right ll lroll linfo lr ih => exact ih

theorem deleteNode_forget (t : Node) (roll : Int) :
    (deleteNode t roll).map forget = Avl.deleteNode (forget t) roll := by
  induction t generalizing roll with
  | null => rfl
  | node left rollNo info right ihl ihr =>
    -- the deletion in the right subtree occurs twice
    have inRight : ∀ k m name, ((deleteNode right k).bind fun right' =>
        rebalanceDelete left m name right').map forget =
          (Avl.deleteNode (forget right) k).bind (Avl.rebalanceDelete (forget left) m) := by
      intro k m name
      rw [← ihr k]
      cases deleteNode right k with
      | none => rfl
      | some right' => exact rebalanceDelete_forget
    rcases lt_trichotomy roll rollNo with hlt | rfl | hgt
    · simp only [deleteNode, forget_node, Avl.deleteNode, if_pos hlt]
      rw [← ihl roll]
      cases deleteNode left roll with
      | none => rfl
      | some left' => exact rebalanceDelete_forget
    · simp only [deleteNode, forget_node, Avl.deleteNode, if_neg (lt_irrefl roll)]
      cases left with
      | null =>
        cases right with
        | null => rfl
        | node rl rroll rinfo rr => exact rebalanceDelete_forget
      | node ll lroll linfo lr =>
        cases right with
        | null => exact rebalanceDelete_forget
        | node rl rroll rinfo rr =>
          have hmin := minValueNode_forget (node rl rroll rinfo rr)
          rw [← hmin]
          cases minValueNode (node rl rroll rinfo rr) with
          | none => rfl
          | some succ => exact inRight succ.1 succ.1 succ.2
    · simp only [deleteNode, forget_node, Avl.deleteNode, if_neg hgt.not_gt, if_pos hgt]
      exact inRight roll rollNo info.name

/-! ## The tests of `insert` -/

open Avl (StoredHeights)

variable {rl rr : Node} {rroll : Int} {rinfo : Info} {cond : Bool} {p : Int → Bool} {t' : Node}

theorem andChild_of_child {child : Node} (h : cond → ∃ k, rollOf child = some k) :
    andChild cond child p = some (cond && (rollOf child).any p) := by
  cases cond with
  | false => rfl
  | true =>
    rcases h rfl with ⟨k, hk⟩
    simp [andChild, hk]

theorem andChild_null : andChild cond null p = if cond then none else some false := rfl

theorem exists_rollOf_left (hr : StoredHeights (forget right))
    (hbalance : height left - height right > 1) :
    ∃ k, rollOf left = some k := by
  have hpos := Avl.height_nonneg hr
  rw [height_forget] at hpos
  cases left with
  | null =>
    have hzero : height null = 0 := rfl
    omega
  | node ll lroll linfo lr => exact ⟨lroll, rfl⟩

/-- Without a right child only the first test and a balance of 1 are harmless. -/
theorem rebalanceInsert_null (roll : Int) : rebalanceInsert left rollNo name null roll =
    if height left > 1 ∧ (rollOf left).any (roll < ·) then
      rightRotate (setHeight left rollNo name null)
    else if height left = 1 ∧ -1 ≤ roll then some (setHeight left rollNo name null) else none := by
  have hnull : height null = 0 := rfl
  have hbalance : getBalance (setHeight left rollNo name null) = height left := by
    rw [getBalance_setHeight, hnull, sub_zero]
  have hstored : StoredHeights (forget null) := trivial
  have hchild : height left > 1 → ∃ k, rollOf left = some k := fun h =>
    exists_rollOf_left hstored (by rw [hnull, sub_zero]; exact h)
  have hleft : ∀ p, andChild (height left > 1) left p =
      some (decide (height left > 1) && (rollOf left).any p) :=
    fun p => andChild_of_child (by simpa using hchild)
  simp only [rebalanceInsert, hbalance, hleft, andChild_null, bind_eq_bind, bind_some]
  by_cases hone : height left = 1
  · -- at balance 1 the second test is skipped; the fourth reads the right child of a roll below -1
    by_cases hroll : roll < -1
    · simp [hone, hroll]
    · simp [hone, hroll]
  · have hsecond : height left - 1 ≠ 0 := sub_ne_zero.2 hone
    simp [hone, hsecond]

/-- With a right child no test fails, only the rotations can. -/
theorem rebalanceInsert_node (hr : StoredHeights (forget right)) (hroll : rollOf right = some rroll)
    (roll : Int) :
    rebalanceInsert left rollNo name right roll =
      if height left - height right > 1 ∧ (rollOf left).any (roll < ·) then
        rightRotate (setHeight left rollNo name right)
      else if height left - height right ≠ 1 ∧ rroll < roll then
        leftRotate (setHeight left rollNo name right)
      else if height left - height right > 1 ∧ (rollOf left).any (· < roll) then
        leftRightRotate (setHeight left rollNo name right)
      else if roll < -1 ∧ roll < rroll then rightLeftRotate (setHeight left rollNo name right)
      else some (setHeight left rollNo name right) := by
  have hchild : height left - height right > 1 → ∃ k, rollOf left = some k := fun h =>
    exists_rollOf_left hr h
  simp only [rebalanceInsert]
  rw [andChild_of_child (by simpa using hchild), andChild_of_child (fun _ => ⟨rroll, hroll⟩),
    andChild_of_child (by simpa using hchild), andChild_of_child (fun _ => ⟨rroll, hroll⟩), hroll]
  simp [sub_ne_zero]

/-! ## Heights -/

theorem stored_setHeight (hl : StoredHeights (forget left)) (hr : StoredHeights (forget right)) :
    StoredHeights (forget (setHeight left rollNo name right)) := by
  rw [forget_setHeight, ← height_forget left, ← height_forget right]
  exact hl.mkNode hr rollNo

/-- Whatever rotation the tests choose, the heights are right again. -/
theorem stored_of_rebalanceInsert (hl : StoredHeights (forget left))
    (hr : StoredHeights (forget right))
    (heq : rebalanceInsert left rollNo name right roll = some t) : StoredHeights (forget t) := by
  have hrightRotate : rightRotate (setHeight left rollNo name right) = some t →
    StoredHeights (forget t) := by
    intro h
    have hforget := congrArg (Option.map forget) h
    rw [rightRotate_forget, map_some] at hforget
    exact Avl.stored_of_rightRotate hl hr hforget
  have hroot : some (setHeight left rollNo name right) = some t → StoredHeights (forget t) := by
    intro h
    cases h
    exact stored_setHeight hl hr
  cases right with
  | null =>
    rw [rebalanceInsert_null] at heq
    split_ifs at heq
    · exact hrightRotate heq
    · exact hroot heq
  | node rl rroll rinfo rr =>
    rw [rebalanceInsert_node hr rfl] at heq
    split_ifs at heq
    · exact hrightRotate heq
    · have hforget := congrArg (Option.map forget) heq
      rw [leftRotate_forget, map_some] at hforget
      exact Avl.stored_of_leftRotate hl hr hforget
    · rw [setHeight] at heq
      have hforget := congrArg (Option.map forget) heq
      rw [leftRightRotate_forget, map_some] at hforget
      exact Avl.stored_of_leftRightRotate hl hr hforget
    · rw [setHeight] at heq
      have hforget := congrArg (Option.map forget) heq
      rw [rightLeftRotate_forget, map_some] at hforget
      exact Avl.stored_of_rightLeftRotate hl hr hforget
    · exact hroot heq

theorem stored_of_insert (hs : StoredHeights (forget t)) (heq : insert t roll name = some t') :
    StoredHeights (forget t') := by
  induction t generalizing t' with
  | null =>
    cases heq
    exact ⟨trivial, trivial, rfl⟩
  | node left rollNo info right ihl ihr =>
    rw [insert] at heq
    split_ifs at heq
    · rcases bind_eq_some_iff.1 heq with ⟨left', hleft, hend⟩
      exact stored_of_rebalanceInsert (ihl hs.1 hleft) hs.2.1 hend
    · rcases bind_eq_some_iff.1 heq with ⟨right', hright, hend⟩
      exact stored_of_rebalanceInsert hs.1 (ihr hs.2.1 hright) hend
    · cases heq
      exact hs

/-- Deletions never fail, and they leave right heights. -/
theorem deleteNode_stored (hs : StoredHeights (forget t)) (roll : Int) :
    ∃ t', deleteNode t roll = some t' ∧ StoredHeights (forget t') := by
  rcases Avl.deleteNode_stored hs roll with ⟨u, hu, hsu⟩
  rw [← deleteNode_forget] at hu
  rcases map_eq_some_iff.1 hu with ⟨t', ht', rfl⟩
  exact ⟨t', ht', hsu⟩

theorem call_stored {c : EnrollCall} (hs : StoredHeights (forget t)) (heq : call t c = some t') :
    StoredHeights (forget t') := by
  cases c with
  | insert roll name => exact stored_of_insert hs heq
  | delete roll =>
    rcases deleteNode_stored hs roll with ⟨u, hu, hsu⟩
    rw [call, hu] at heq
    cases heq
    exact hsu

/-! ## The nodes of an insertion -/

/-- `p` holds at every node that the insertion goes back through, for its subtrees after the
insertion below. -/
def onPath (p : Node → Node → Int → Bool) : Node → Int → Name → Bool
  | null, _, _ => true
  | node left rollNo _ right, roll, name =>
    if roll < rollNo then
      onPath p left roll name && (insert left roll name).all fun left' => p left' right roll
    else if roll > rollNo then
      onPath p right roll name && (insert right roll name).all fun right' => p left right' roll
    else true

def hasLeft : Node → Bool
  | node (node _ _ _ _) _ _ _ => true
  | _ => false

def hasRight : Node → Bool
  | node _ _ _ (node _ _ _ _) => true
  | _ => false

/-- The end of `insert` does not read through `NULL` at a node with these children. -/
def safeAt (left right : Node) (roll : Int) : Bool :=
  match right with
  -- the second test reads the missing child unless the balance is 1, the fourth one if the roll is
  -- below -1
  | null => if height left = 1 then -1 ≤ roll else (rollOf left).any (roll < ·)
  | node _ rroll _ _ =>
    if height left - height right > 1 ∧ (rollOf left).any (roll < ·) then true
    else if height left - height right ≠ 1 ∧ rroll < roll then true
    -- a double rotation needs the inner grandchild
    else if height left - height right > 1 ∧ (rollOf left).any (· < roll) then hasRight left
    else if roll < -1 ∧ roll < rroll then hasLeft right
    else true

theorem rightRotate_isSome (k : Int) (h : rollOf left = some k) :
    (rightRotate (setHeight left rollNo name right)).isSome := by
  cases left with
  | null => cases h
  | node ll lroll linfo lr => rfl

theorem leftRightRotate_isSome : (leftRightRotate (setHeight left rollNo name right)).isSome =
    hasRight left := by
  cases left with
  | null => rfl
  | node ll lroll linfo lr =>
    cases lr with
    | null => rfl
    | node ml mroll minfo mr => rfl

theorem rightLeftRotate_isSome : (rightLeftRotate (setHeight left rollNo name right)).isSome =
    hasLeft right := by
  cases right with
  | null => rfl
  | node rl rroll rinfo rr =>
    cases rl with
    | null => rfl
    | node ml mroll minfo mr => rfl

theorem exists_rollOf_of_any (h : (rollOf t).any p) : ∃ k, rollOf t = some k := by
  cases t with
  | null => cases h
  | node tl troll tinfo tr => exact ⟨troll, rfl⟩

theorem height_pos_of_rollOf {k : Int} (hs : StoredHeights (forget t)) (h : rollOf t = some k) :
    0 < height t := by
  cases t with
  | null => cases h
  | node tl troll tinfo tr =>
    have hstored := hs.2.2
    change 0 < tinfo.height
    omega

theorem rebalanceInsert_isSome_iff (hl : StoredHeights (forget left))
    (hr : StoredHeights (forget right)) :
    (rebalanceInsert left rollNo name right roll).isSome ↔ safeAt left right roll := by
  cases right with
  | null =>
    rw [rebalanceInsert_null, safeAt]
    by_cases hone : height left = 1
    · by_cases hroll : -1 ≤ roll
      · simp [hone]
      · simp [hone]
    · rw [if_neg (fun h : height left = 1 ∧ -1 ≤ roll => hone h.1), if_neg hone]
      by_cases hless : (rollOf left).any (roll < ·)
      · rcases exists_rollOf_of_any hless with ⟨k, hk⟩
        -- a left child without a right one has height 1 or makes the balance greater than 1
        have hpos := height_pos_of_rollOf hl hk
        rw [if_pos ⟨by omega, hless⟩]
        exact iff_of_true (rightRotate_isSome k hk) hless
      · simp [hless]
  | node rl rroll rinfo rr =>
    rw [rebalanceInsert_node hr rfl, safeAt]
    split_ifs with h1 h2 h3 h4
    · rcases exists_rollOf_of_any h1.2 with ⟨k, hk⟩
      simp [rightRotate_isSome k hk]
    · exact iff_of_true rfl rfl
    · rw [leftRightRotate_isSome]
    · rw [rightLeftRotate_isSome]
    · exact iff_of_true rfl rfl

theorem insert_isSome_iff (hs : StoredHeights (forget t)) :
    (insert t roll name).isSome ↔ onPath safeAt t roll name := by
  induction t with
  | null => exact iff_of_true rfl rfl
  | node left rollNo info right ihl ihr =>
    rw [insert, onPath]
    split_ifs
    · -- the insertion below has to come back before this node is looked at
      rw [Bool.and_eq_true, ← ihl hs.1]
      cases hleft : insert left roll name with
      | none => simp
      | some left' => simpa using rebalanceInsert_isSome_iff (stored_of_insert hs.1 hleft) hs.2.1
    · rw [Bool.and_eq_true, ← ihr hs.2.1]
      cases hright : insert right roll name with
      | none => simp
      | some right' => simpa using rebalanceInsert_isSome_iff hs.1 (stored_of_insert hs.2.1 hright)
    · exact iff_of_true rfl rfl

/-- An insertion passes safe nodes only; a deletion is always safe. -/
def allowed (root : Node) : EnrollCall → Bool
  | .insert roll name => onPath safeAt root roll name
  | .delete _ => true

theorem call_isSome_iff (hs : StoredHeights (forget t)) (c : EnrollCall) :
    (call t c).isSome ↔ allowed t c := by
  cases c with
  | insert roll name => exact insert_isSome_iff hs
  | delete roll =>
    rcases deleteNode_stored hs roll with ⟨u, hu, -⟩
    exact iff_of_true (by rw [call, hu]; rfl) rfl

/-! ## Runs -/

/-- No `NULL` pointer is read through, in a test or in a rotation, exactly if every insertion passes
safe nodes only. -/
theorem no_null_dereference_iff (calls : List EnrollCall) :
    (run calls).isSome ↔ guarded call allowed null calls := by
  constructor
  · intro hrun
    rcases isSome_iff_exists.1 hrun with ⟨t, ht⟩
    -- right heights are all that the condition needs, and every call that comes back keeps them
    refine guarded_of_runCalls (P := fun t => StoredHeights (forget t)) ?_ trivial ht
    intro s c s' hs hcall
    exact ⟨(call_isSome_iff hs c).1 (by rw [hcall]; rfl), call_stored hs hcall⟩
  · intro hok
    have hstep : ∀ (s : Node) (made : List EnrollCall), ∀ c ∈ calls, StoredHeights (forget s) →
        allowed s c → ∃ s', call s c = some s' ∧ StoredHeights (forget s') := by
      intro s made c _ hs hc
      rcases isSome_iff_exists.1 ((call_isSome_iff hs c).2 hc) with ⟨s', hs'⟩
      exact ⟨s', hs', call_stored hs hs'⟩
    have hnull : StoredHeights (forget null) := trivial
    rcases runCalls_guarded (R := fun s _ => StoredHeights (forget s)) hstep hnull hok
      with ⟨t, ht, -⟩
    rw [run, ht]
    rfl

def demoName : Name := ⟨CString.ofLiteral "x", by decide⟩

/-- The second test reads the missing right child of the left-right shape, and the fourth one that
of a root with a roll below -1 on its left.  Opposite a right child without children such a roll
rotates that child. -/
theorem left_right_shape_reads_null :
    run [.insert 3 demoName, .insert 1 demoName, .insert 2 demoName] = none ∧
      run [.insert 0 demoName, .insert (-5) demoName] = none ∧
        run [.insert 0 demoName, .insert 1 demoName, .insert (-5) demoName] = none := by
  refine ⟨?_, ?_, ?_⟩ <;> rfl

end SystemsLab.Enrollment
