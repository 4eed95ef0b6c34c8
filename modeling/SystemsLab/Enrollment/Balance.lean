import SystemsLab.Enrollment.Safety

/-!
# When the tree stays balanced

The stored heights are always right.  The balance is not: `insert` rotates to the left wherever
`balance-1` is not zero, and a right-left shape is only repaired for rolls below -1.
-/

namespace SystemsLab.Enrollment

open SearchTree CallSequence Option

open Avl (StoredHeights Balanced Valid)

/-- The tests choose the rotation that they choose with `balance<-1` in place of `balance-1` and
`roll<-1`. -/
def asIntendedAt (left right : Node) (roll : Int) : Bool :=
  let balance := height left - height right
  if balance > 1 ∧ (rollOf left).any (roll < ·) then true
  else (rollOf right).all fun rroll =>
    if rroll < roll then balance = 1 ∨ balance < -1
    else if balance > 1 ∧ (rollOf left).any (· < roll) then true
    else roll < rroll → (roll < -1 ↔ balance < -1)

variable {left right t t' : Node} {rollNo roll rroll : Int} {name : Name}

/-! ### The end of `insert` of `avl-tree.c`, on trees with names -/

theorem keyOf_forget (t : Node) : Avl.keyOf (forget t) = rollOf t := by
  cases t with
  | null => rfl
  | node tl troll tinfo tr => rfl

theorem rebalanceInsert_leftHigh {lroll : Int} (hbalance : height left - height right > 1)
    (hlroll : rollOf left = some lroll) (rollNo : Int) (name : Name) (roll : Int) :
    Avl.rebalanceInsert (forget left) rollNo (forget right) roll = Option.map forget
      (if roll < lroll then rightRotate (setHeight left rollNo name right)
        else if roll > lroll then leftRightRotate (setHeight left rollNo name right)
        else some (setHeight left rollNo name right)) := by
  simp only [Avl.rebalanceInsert, height_forget, keyOf_forget, hlroll, bind_some,
    add_comm (1 : Int)]
  split_ifs
  · exact (rightRotate_forget (setHeight left rollNo name right)).symm
  · rw [setHeight, leftRightRotate_forget]
  · rfl

theorem rebalanceInsert_rightHigh (hbalance : height left - height right < -1)
    (hrroll : rollOf right = some rroll) (rollNo : Int) (name : Name) (roll : Int) :
    Avl.rebalanceInsert (forget left) rollNo (forget right) roll = Option.map forget
      (if roll > rroll then leftRotate (setHeight left rollNo name right)
        else if roll < rroll then rightLeftRotate (setHeight left rollNo name right)
        else some (setHeight left rollNo name right)) := by
  have hnot : ¬height left - height right > 1 := by omega
  simp only [Avl.rebalanceInsert, height_forget, keyOf_forget, hrroll,
    bind_some, add_comm (1 : Int)]
  split_ifs
  · exact (leftRotate_forget (setHeight left rollNo name right)).symm
  · rw [setHeight, rightLeftRotate_forget]
  · rfl

theorem rebalanceInsert_level (hleft : ¬height left - height right > 1)
    (hright : ¬height left - height right < -1) (rollNo : Int) (name : Name) (roll : Int) :
    Avl.rebalanceInsert (forget left) rollNo (forget right) roll =
      some (forget (setHeight left rollNo name right)) := by
  simp only [Avl.rebalanceInsert, height_forget, if_neg hleft, if_neg hright, forget_setHeight,
    add_comm (1 : Int)]

theorem asIntendedAt_iff (hrroll : rollOf right = some rroll) : asIntendedAt left right roll ↔
      (height left - height right > 1 ∧ (rollOf left).any (roll < ·)) ∨
        (rroll < roll → height left - height right = 1 ∨ height left - height right < -1) ∧
          (roll < rroll → (height left - height right > 1 ∧ (rollOf left).any (· < roll)) ∨
            (roll < -1 ↔ height left - height right < -1)) := by
  simp only [asIntendedAt, hrroll]
  by_cases hfirst : height left - height right > 1 ∧ (rollOf left).any (roll < ·)
  · rw [if_pos hfirst]
    exact iff_of_true rfl (.inl hfirst)
  · rcases lt_trichotomy rroll roll with hlt | rfl | hgt
    · simp [hlt, hlt.not_gt]
    · simp
    · by_cases hthird : height left - height right > 1 ∧ (rollOf left).any (· < roll)
      · simp [hgt.not_gt, hthird]
      · simp [hgt, hgt.not_gt]

theorem rebalanceInsert_intended_node (hr : StoredHeights (forget right))
    (hrroll : rollOf right = some rroll) (hintended : asIntendedAt left right roll) :
    (rebalanceInsert left rollNo name right roll).map forget =
      Avl.rebalanceInsert (forget left) rollNo (forget right) roll := by
  rw [rebalanceInsert_node hr hrroll]
  rw [asIntendedAt_iff hrroll] at hintended
  by_cases hhigh : height left - height right > 1
  · -- the first and the third test decide, the others must not
    rcases exists_rollOf_left hr hhigh with ⟨lroll, hlroll⟩
    rw [rebalanceInsert_leftHigh hhigh hlroll rollNo name]
    simp only [hlroll, any_some, decide_eq_true_eq] at hintended ⊢
    congr 1
    split_ifs <;> first | rfl | omega
  · rcases hintended with hfirst | ⟨hsecond, hfourth⟩
    · exact absurd hfirst.1 hhigh
    have hfourth' : roll < rroll → (roll < -1 ↔ height left - height right < -1) := fun hlt =>
      (hfourth hlt).resolve_left fun hthird => hhigh hthird.1
    by_cases hlow : height left - height right < -1
    · -- the second test decides as it should, and the fourth reads `roll<-1` like `balance<-1`
      have hne : height left - height right ≠ 1 := by omega
      rw [rebalanceInsert_rightHigh hlow hrroll rollNo name]
      rcases lt_trichotomy roll rroll with hlt | rfl | hgt
      · simp [hhigh, hlt.not_gt, (hfourth' hlt).2 hlow]
      · simp [hhigh]
      · simp [hhigh, hgt, hne]
    · -- no test holds
      rw [rebalanceInsert_level hhigh hlow rollNo name]
      rcases lt_trichotomy roll rroll with hlt | rfl | hgt
      · have hroll : ¬roll < -1 := fun h => hlow ((hfourth' hlt).1 h)
        simp [hhigh, hlt.not_gt, hroll]
      · simp [hhigh]
      · simp [hgt.not_gt, (hsecond hgt).resolve_right hlow]

theorem rebalanceInsert_intended (hr : StoredHeights (forget right))
    (hintended : asIntendedAt left right roll)
    (heq : rebalanceInsert left rollNo name right roll = some t) :
    Avl.rebalanceInsert (forget left) rollNo (forget right) roll = some (forget t) := by
  cases right with
  | null =>
    have hnull : height null = 0 := rfl
    -- the run goes on, so only the first test or a balance of 1 is left
    rw [rebalanceInsert_null] at heq
    split_ifs at heq with hfirst hone
    · rcases exists_rollOf_of_any hfirst.2 with ⟨lroll, hlroll⟩
      have hless : roll < lroll := by simpa [hlroll] using hfirst.2
      rw [rebalanceInsert_leftHigh (by omega) hlroll rollNo name, if_pos hless, heq]
      rfl
    · cases heq
      exact rebalanceInsert_level (by omega) (by omega) rollNo name roll
  | node rl rroll rinfo rr =>
    rw [← rebalanceInsert_intended_node hr rfl hintended, heq]
    rfl

theorem insert_intended (hs : StoredHeights (forget t))
    (hintended : onPath asIntendedAt t roll name)
    (heq : insert t roll name = some t') : Avl.insert (forget t) roll = some (forget t') := by
  induction t generalizing t' with
  | null =>
    cases heq
    rfl
  | node left rollNo info right ihl ihr =>
    rw [insert] at heq
    rw [onPath] at hintended
    rw [forget_node, Avl.insert]
    split_ifs at heq hintended ⊢
    · -- below, the insertion is that of `avl-tree.c` by induction
      rcases bind_eq_some_iff.1 heq with ⟨left', hleft, hend⟩
      rw [hleft, all_some, Bool.and_eq_true] at hintended
      rw [ihl hs.1 hintended.1 hleft]
      exact rebalanceInsert_intended hs.2.1 hintended.2 hend
    · rcases bind_eq_some_iff.1 heq with ⟨right', hright, hend⟩
      rw [hright, all_some, Bool.and_eq_true] at hintended
      rw [ihr hs.2.1 hintended.1 hright, bind_some]
      exact rebalanceInsert_intended (stored_of_insert hs.2.1 hright) hintended.2 hend
    · cases heq
      rfl

/-- An insertion passes only nodes where the tests do what they are meant to do. -/
def asIntended (root : Node) : EnrollCall → Bool
  | .insert roll name => onPath asIntendedAt root roll name
  | .delete _ => true

theorem call_valid {c : EnrollCall} (hv : Valid (forget t)) (hc : asIntended t c)
    (heq : call t c = some t') : Valid (forget t') := by
  cases c with
  | insert roll name =>
    rcases Avl.insert_valid roll hv with ⟨u, hu, hvu, -⟩
    rw [insert_intended hv.stored hc heq] at hu
    cases hu
    exact hvu
  | delete roll =>
    rcases Avl.deleteNode_valid hv roll with ⟨u, hu, hvu, -⟩
    rw [← deleteNode_forget, show deleteNode t roll = some t' from heq] at hu
    cases hu
    exact hvu

def demoCalls : List EnrollCall :=
  [.insert 3 demoName, .insert 2 demoName, .insert 1 demoName, .insert 0 demoName,
    .insert (-1) demoName, .delete 3]

/-- The stored heights are right after every run.  If the insertions only pass nodes where the tests
do what they are meant to do, the tree is balanced as well. -/
theorem balanced_when_intended (calls : List EnrollCall) (t : Node) (hrun : run calls = some t) :
    StoredHeights (forget t) ∧ (guarded call asIntended null calls → Balanced (forget t)) := by
  have hnull : Valid (forget null) := Avl.valid_null
  constructor
  · refine runCalls_kept (P := fun t => StoredHeights (forget t)) ?_ hnull.stored hrun
    intro s c s' hs hcall
    exact call_stored hs hcall
  · intro hintended
    have hvalid : Valid (forget t) := by
      refine runCalls_kept_guarded (P := fun t => Valid (forget t)) ?_ hnull hintended hrun
      intro s c s' hs hc hcall
      exact call_valid hs hc hcall
    exact hvalid.balanced

/-- Descending rolls rotate to the right, as they should, and a deletion rotates once more. -/
theorem balanced_when_intended_demo : ∃ t, run demoCalls = some t ∧ StoredHeights (forget t) ∧
    Balanced (forget t) := by
  rcases hrun : run demoCalls with _ | t
  · exact absurd hrun (by decide)
  · have h := balanced_when_intended demoCalls t hrun
    exact ⟨t, rfl, h.1, h.2 (by decide)⟩

/-- A right-left shape is not repaired, and the fifth of five ascending rolls rotates a level node.
-/
theorem right_left_shape_stays :
    (∃ t, run [.insert 1 demoName, .insert 3 demoName, .insert 2 demoName] = some t ∧
      ¬Balanced (forget t)) ∧
      ∃ t, run ([1, 2, 3, 4, 5].map fun roll => .insert roll demoName) = some t ∧
        ¬Balanced (forget t) := by
  refine ⟨⟨_, rfl, ?_⟩, ⟨_, rfl, ?_⟩⟩
  · rintro ⟨-, -, -, hright⟩
    have hheights : 2 ≤ 0 + 1 := hright
    omega
  · rintro ⟨-, -, hleft, -⟩
    have hheights : 3 ≤ 1 + 1 := hleft
    omega

end SystemsLab.Enrollment
