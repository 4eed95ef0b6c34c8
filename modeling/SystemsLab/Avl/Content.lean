import Mathlib
import SystemsLab.Avl.Balance

/-!
# The tree is a set of keys

Rotations keep the in-order key list, so the order of the keys has to be followed only through the
recursive calls and the two copies of `deleteNode`.
-/

namespace SystemsLab.Avl

open SearchTree CallSequence List
open Option (bind_eq_some_iff)

/-! ## Rotations keep the key list -/

variable {t t' right left : Node} {key h : Int}

theorem keys_rightRotate (h : rightRotate t = some t') : t'.keys = t.keys := by
  rcases t with _ | ⟨_ | ⟨xl, xkey, xh, T2⟩, ykey, yh, yr⟩
  · cases h
  · cases h
  · cases h
    simp

theorem keys_leftRotate (h : leftRotate t = some t') : t'.keys = t.keys := by
  rcases t with _ | ⟨xl, xkey, xh, _ | ⟨T2, ykey, yh, yr⟩⟩
  · cases h
  · cases h
  · cases h
    simp

theorem keys_leftRightRotate (heq : leftRightRotate left key h right = some t') :
    t'.keys = left.keys ++ key :: right.keys := by
  rcases bind_eq_some_iff.1 heq with ⟨left', hleft, hrot⟩
  rw [keys_rightRotate hrot, keys_node, keys_leftRotate hleft]

theorem keys_rightLeftRotate (heq : rightLeftRotate left key h right = some t') :
    t'.keys = left.keys ++ key :: right.keys := by
  rcases bind_eq_some_iff.1 heq with ⟨right', hright, hrot⟩
  rw [keys_leftRotate hrot, keys_node, keys_rightRotate hright]

theorem keys_rebalanceInsert {nkey : Int} (heq : rebalanceInsert left nkey right key = some t') :
    t'.keys = left.keys ++ nkey :: right.keys := by
  simp only [rebalanceInsert] at heq
  split_ifs at heq
  · rcases bind_eq_some_iff.1 heq with ⟨lkey, -, hrot⟩
    split_ifs at hrot
    · exact keys_rightRotate hrot
    · exact keys_leftRightRotate hrot
    · cases hrot
      rfl
  · rcases bind_eq_some_iff.1 heq with ⟨rkey, -, hrot⟩
    split_ifs at hrot
    · exact keys_leftRotate hrot
    · exact keys_rightLeftRotate hrot
    · cases hrot
      rfl
  · cases heq
    rfl

theorem keys_rebalanceDelete {nkey : Int} (heq : rebalanceDelete left nkey right = some t') :
    t'.keys = left.keys ++ nkey :: right.keys := by
  simp only [rebalanceDelete] at heq
  split_ifs at heq
  · exact keys_rightRotate heq
  · exact keys_leftRightRotate heq
  · exact keys_leftRotate heq
  · exact keys_rightLeftRotate heq
  · cases heq
    rfl

theorem ordered_of_keys_eq (heq : t'.keys = left.keys ++ key :: right.keys)
    (ho : (node left key h right).Ordered) : t'.Ordered := by
  rwa [Ordered, heq]

/-! ## One call -/

theorem insert_content (ho : t.Ordered) (heq : insert t key = some t') :
    t'.Ordered ∧ ∀ x, x ∈ t'.keys ↔ x = key ∨ x ∈ t.keys := by
  induction t generalizing t' with
  | null =>
    cases heq
    simp [createNode, Ordered]
  | node left nkey h right ihl ihr =>
    rcases ordered_node.1 ho with ⟨hl, hr, hlt, hgt⟩
    rw [insert] at heq
    split_ifs at heq with hless hmore
    · rcases bind_eq_some_iff.1 heq with ⟨left', hins, hreb⟩
      rcases ihl hl hins with ⟨hl', hmem⟩
      have hkeys := keys_rebalanceInsert hreb
      have hnode : (node left' nkey h right).Ordered := ordered_node.2 ⟨hl', hr, by grind, hgt⟩
      refine ⟨ordered_of_keys_eq hkeys hnode, fun x => ?_⟩
      simp [hkeys, hmem, or_assoc]
    · rcases bind_eq_some_iff.1 heq with ⟨right', hins, hreb⟩
      rcases ihr hr hins with ⟨hr', hmem⟩
      have hkeys := keys_rebalanceInsert hreb
      have hnode : (node left nkey h right').Ordered := ordered_node.2 ⟨hl, hr', hlt, by grind⟩
      refine ⟨ordered_of_keys_eq hkeys hnode, fun x => ?_⟩
      simp only [hkeys, hmem, keys_node, mem_append, mem_cons]
      tauto
    · cases heq
      obtain rfl : key = nkey := by omega
      simp [ho]

theorem minimumValueNode_head {m : Int}
    (h : (minimumValueNode t).bind keyOf = some m) : ∃ rest, t.keys = m :: rest := by
  induction t with
  | null => cases h
  | node left key ht right ihl _ =>
    cases left with
    | null =>
      cases h
      exact ⟨right.keys, rfl⟩
    | node ll lkey lh lr =>
      rcases ihl h with ⟨rest, hrest⟩
      exact ⟨rest ++ key :: right.keys, by rw [keys_node, hrest]; rfl⟩

theorem replaceBySuccessor_content {right' : Node} {m : Int} {tail : List Int}
    (hl : left.Ordered) (hr : right.Ordered) (hlt : ∀ x ∈ left.keys, x < key)
    (hgt : ∀ x ∈ right.keys, key < x) (htail : right.keys = m :: tail) (hr' : right'.Ordered)
    (hmem : ∀ x, x ∈ right'.keys ↔ x ≠ m ∧ x ∈ right.keys)
    (hkeys : t'.keys = left.keys ++ m :: right'.keys) :
    t'.Ordered ∧ ∀ x, x ∈ t'.keys ↔ x ∈ left.keys ∨ x ∈ right.keys := by
  have hm : m ∈ right.keys := by simp [htail]
  -- the successor is the head of an increasing list
  rw [Ordered, htail, pairwise_cons] at hr
  have hnode : (node left m 0 right' : Node).Ordered :=
    ordered_node.2 ⟨hl, hr', fun x hx => (hlt x hx).trans (hgt m hm), by grind⟩
  refine ⟨ordered_of_keys_eq hkeys hnode, fun x => ?_⟩
  grind

theorem deleteNode_content (ho : t.Ordered) (heq : deleteNode t key = some t') :
    t'.Ordered ∧ ∀ x, x ∈ t'.keys ↔ x ≠ key ∧ x ∈ t.keys := by
  induction t generalizing t' key with
  | null =>
    cases heq
    simp
  | node left nkey h right ihl ihr =>
    rcases ordered_node.1 ho with ⟨hl, hr, hlt, hgt⟩
    rw [deleteNode.eq_def] at heq
    dsimp only at heq
    split_ifs at heq with hless hmore
    · rcases bind_eq_some_iff.1 heq with ⟨left', hdel, hreb⟩
      rcases ihl hl hdel with ⟨hl', hmem⟩
      have hkeys := keys_rebalanceDelete hreb
      have hnode : (node left' nkey h right).Ordered := ordered_node.2 ⟨hl', hr, by grind, hgt⟩
      refine ⟨ordered_of_keys_eq hkeys hnode, fun x => ?_⟩
      simp only [keys_node]
      grind
    · rcases bind_eq_some_iff.1 heq with ⟨right', hdel, hreb⟩
      rcases ihr hr hdel with ⟨hr', hmem⟩
      have hkeys := keys_rebalanceDelete hreb
      have hnode : (node left nkey h right').Ordered := ordered_node.2 ⟨hl, hr', hlt, by grind⟩
      refine ⟨ordered_of_keys_eq hkeys hnode, fun x => ?_⟩
      simp only [keys_node]
      grind
    · obtain rfl : key = nkey := by omega
      -- what remains is the keys of both subtrees
      suffices hsuff : t'.Ordered ∧ ∀ x, x ∈ t'.keys ↔ x ∈ left.keys ∨ x ∈ right.keys by
        refine ⟨hsuff.1, fun x => ?_⟩
        rw [hsuff.2, keys_node]
        grind
      rcases left with _ | ⟨ll, lkey, lh, lr⟩ <;> rcases right with _ | ⟨rl, rkey, rh, rr⟩
      · cases heq
        simp
      · have hkeys := keys_rebalanceDelete heq
        exact ⟨ordered_of_keys_eq hkeys hr, by simp [hkeys]⟩
      · have hkeys := keys_rebalanceDelete heq
        exact ⟨ordered_of_keys_eq hkeys hl, by simp [hkeys]⟩
      · rcases bind_eq_some_iff.1 heq with ⟨m, hm, hrest⟩
        rcases bind_eq_some_iff.1 hrest with ⟨right', hdel, hreb⟩
        rcases ihr hr hdel with ⟨hr', hmem⟩
        rcases minimumValueNode_head hm with ⟨tail, htail⟩
        exact replaceBySuccessor_content hl hr hlt hgt htail hr' hmem (keys_rebalanceDelete hreb)

theorem search_content (ho : t.Ordered) (k : Int) :
    (k ∈ t.keys → ∃ left h right, search t k = node left k h right) ∧
    (k ∉ t.keys → search t k = null) := by
  induction t with
  | null => simp [search]
  | node left nkey h right ihl ihr =>
    rcases ordered_node.1 ho with ⟨hl, hr, -, -⟩
    rw [search]
    rcases lt_trichotomy k nkey with hless | rfl | hmore
    · rw [if_neg hless.ne', if_pos hless, ho.mem_left_of_lt hless]
      exact ihl hl
    · rw [if_pos rfl]
      refine ⟨fun _ => ⟨left, h, right, rfl⟩, fun hk => ?_⟩
      simp at hk
    · rw [if_neg hmore.ne, if_neg hmore.not_gt, ho.mem_right_of_lt hmore]
      exact ihr hr

/-! ## Whole runs -/

/-- A valid ordered tree with exactly the keys of `S`. -/
structure Holds (t : Node) (S : Finset Int) : Prop where
  valid : Valid t
  ordered : t.Ordered
  mem_iff : ∀ x, x ∈ t.keys ↔ x ∈ S

theorem call_holds (t : Node) (S : Finset Int) (c : SetCall Int) (h : Holds t S) :
    ∃ t', call t c = some t' ∧ Holds t' (c.effect S) := by
  rcases call_valid h.valid c with ⟨t', ht, hv⟩
  refine ⟨t', ht, ?_⟩
  cases c with
  | insert key =>
    rcases insert_content h.ordered ht with ⟨ho, hmem⟩
    refine ⟨hv, ho, fun x => ?_⟩
    simp [hmem, h.mem_iff, SetCall.effect]
  | delete key =>
    rcases deleteNode_content h.ordered ht with ⟨ho, hmem⟩
    refine ⟨hv, ho, fun x => ?_⟩
    simp [hmem, h.mem_iff, SetCall.effect]

/-- After any calls from the empty tree, the in-order traversal enumerates the set of the keys
inserted and not later deleted, and `search` decides membership in that set. -/
theorem avl_is_set (calls : List (SetCall Int)) :
    ∃ t, run calls = some t ∧ t.keys = (keySet calls).sort (· ≤ ·) ∧ t.keys.Pairwise (· < ·) ∧ ∀ k,
        (k ∈ keySet calls → ∃ left h right, search t k = node left k h right) ∧
        (k ∉ keySet calls → search t k = null) := by
  have hnull : Holds null ∅ := ⟨valid_null, ordered_null, by simp⟩
  rcases runCalls_simulates SetCall.effect call_holds hnull calls with ⟨t, ht, h⟩
  refine ⟨t, ht, h.ordered.keys_eq_sort h.mem_iff, h.ordered, fun k => ?_⟩
  have hsearch := search_content h.ordered k
  rwa [h.mem_iff k] at hsearch

end SystemsLab.Avl
