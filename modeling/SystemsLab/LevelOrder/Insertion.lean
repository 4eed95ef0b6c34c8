import SystemsLab.Data.CallSequence
import SystemsLab.Data.Heap
import Mathlib.Data.Nat.Log
import Mathlib.Data.Tree.Basic

/-!
# `binary-tree-with-dynamic-insertion.c` and `binary-tree-depth-from-array.c`

Both files build a binary tree level by level: `insertNode` searches the first free place with a
queue, whose storage is never reused, and `insertLevelOrder` computes the places of the children
from the place of their parent.

- `InLevels` — what the nodes in memory are after some insertions: the node with the number `i` has
  those with the numbers `2 * i + 1` and `2 * i + 2` as its children;
- `run_eq` — an insertion into a tree of `m` nodes writes `m` places of its queue.
-/

namespace SystemsLab.LevelOrder

open List CallSequence Option

/-! ## Insertion with a queue -/

structure Node where
  data : Int
  left : Option Nat
  right : Option Nat
  deriving DecidableEq, Repr

/-- The queue: `items` has what was written, the last of it at `rear`. -/
structure Queue where
  items : List Nat
  front : Nat
  size : Nat

def createQueue : Queue := ⟨[], 0, 0⟩

def Queue.isEmpty (queue : Queue) : Bool := queue.size == 0

/-- None for a write past the storage. -/
def Queue.enqueue (capacity : Nat) (queue : Queue) (node : Nat) : Option Queue :=
  if queue.items.length <
    capacity then some ⟨queue.items ++ [node], queue.front, queue.size + 1⟩ else none

/-- None for a read of a place that was not written. -/
def Queue.dequeue (queue : Queue) : Option (Nat × Queue) := do
  let node ← queue.items[queue.front]?
  some (node, ⟨queue.items, queue.front + 1, queue.size - 1⟩)

/-- The loop of `insertNode`, with a bound for its rounds. -/
def insertLoop (capacity : Nat) (heap : Heap Node) (newNode : Nat) :
    Nat → Queue → Option (Heap Node)
  | 0, _ => none
  | rounds + 1, queue =>
    if queue.isEmpty then some heap
    else do
      let (temp, queue) ← queue.dequeue
      let node ← heap.cell temp
      match node.left with
      | none => some (heap.adjust temp fun node => { node with left := some newNode })
      | some left =>
        let queue ← queue.enqueue capacity left
        match node.right with
        | none => some (heap.adjust temp fun node => { node with right := some newNode })
        | some right =>
          let queue ← queue.enqueue capacity right
          insertLoop capacity heap newNode rounds queue

/-- The memory and the root. -/
structure State where
  heap : Heap Node
  root : Option Nat

def empty : State := ⟨.empty, none⟩

/-- `insertNode`; its arguments are the value and the choice of `malloc` for the node. -/
def insertNode (capacity : Nat) (s : State) (c : Int × Nat) : Option State :=
  let newNode := s.heap.freshAddr c.2
  let heap := s.heap.alloc c.2 ⟨c.1, none, none⟩
  match s.root with
  | none => some ⟨heap, some newNode⟩
  | some root => do
    let queue ← createQueue.enqueue capacity root
    let heap ← insertLoop capacity heap newNode (capacity + 1) queue
    some ⟨heap, some root⟩

/-- The nodes are those at `addrs`, level by level, with the values `vals`. -/
structure InLevels (s : State) (addrs : List Nat) (vals : List Int) : Prop where
  nodup : addrs.Nodup
  length_eq : vals.length = addrs.length
  root : s.root = addrs[0]?
  cell : ∀ i a v, addrs[i]? = some a → vals[i]? = some v →
    s.heap.cell a = some ⟨v, addrs[2 * i + 1]?, addrs[2 * i + 2]?⟩

variable {capacity : Nat} {heap : Heap Node} {newNode i rounds : Nat} {s : State} {addrs : List Nat}
  {vals : List Int}

/-- The child with the number `m` is set in its parent. -/
def attach (heap : Heap Node) (m parent newNode : Nat) : Heap Node :=
  heap.adjust parent fun node =>
    if m % 2 = 1 then { node with left := some newNode } else { node with right := some newNode }

theorem enqueue_take {k f size x : Nat} (hx : addrs[k]? = some x) :
    Queue.enqueue capacity ⟨addrs.take k, f, size⟩ x =
      if k < capacity then some ⟨addrs.take (k + 1), f, size + 1⟩ else none := by
  have hk : k < addrs.length := (List.getElem?_eq_some_iff.1 hx).1
  rw [Queue.enqueue, length_take_of_le hk.le, take_add_one, hx]
  rfl

/-- Before the round `i` the first `2 * i + 1` nodes are written, of which `i` are read. -/
theorem insertLoop_eq {root : Option Nat} (h : InLevels ⟨heap, root⟩ addrs vals)
    (hi : 2 * i + 1 ≤ addrs.length) (hcapacity : 2 * i + 1 ≤ capacity) :
    (addrs.length ≤ capacity → addrs.length ≤ 2 * (i + rounds) → ∃ parent,
      addrs[(addrs.length - 1) / 2]? = some parent ∧
      insertLoop capacity heap newNode rounds ⟨addrs.take (2 * i + 1), i, i + 1⟩ =
        some (attach heap addrs.length parent newNode)) ∧ (capacity < addrs.length →
      insertLoop capacity heap newNode rounds ⟨addrs.take (2 * i + 1), i, i + 1⟩ = none) := by
  induction rounds generalizing i with
  | zero => exact ⟨fun _ hrounds => absurd hrounds (by omega), fun _ => rfl⟩
  | succ rounds ih =>
    obtain ⟨a, ha⟩ : ∃ a, addrs[i]? = some a := ⟨_, getElem?_eq_getElem (by omega)⟩
    obtain ⟨v, hv⟩ : ∃ v, vals[i]? = some v := ⟨_, getElem?_eq_getElem (by rw [h.length_eq]; omega)⟩
    have hcell : heap.cell a = some ⟨v, addrs[2 * i + 1]?, addrs[2 * i + 2]?⟩ := h.cell i a v ha hv
    have hfront : (addrs.take (2 * i + 1))[i]? = some a := by
      rw [getElem?_take_of_lt (by omega), ha]
    simp only [insertLoop, Queue.isEmpty, Queue.dequeue, hfront, hcell, bind_eq_bind, bind_some]
    cases hleft : addrs[2 * i + 1]? with
    | none =>
      have hm : addrs.length = 2 * i + 1 := by
        have := getElem?_eq_none_iff.1 hleft
        omega
      refine ⟨fun _ _ => ⟨a, by rwa [hm, show (2 * i + 1 - 1) / 2 = i by omega], ?_⟩,
        fun hfull => by omega⟩
      simp [attach, hm]
    | some left =>
      have hlt : 2 * i + 1 < addrs.length := (List.getElem?_eq_some_iff.1 hleft).1
      simp only [enqueue_take hleft]
      by_cases hroom : 2 * i + 1 < capacity
      · simp only [hroom, if_true, bind_some]
        cases hright : addrs[2 * i + 2]? with
        | none =>
          have hm : addrs.length = 2 * i + 2 := by
            have := getElem?_eq_none_iff.1 hright
            omega
          refine ⟨fun _ _ => ⟨a, by rwa [hm, show (2 * i + 2 - 1) / 2 = i by omega], ?_⟩,
            fun hfull => by omega⟩
          simp [attach, hm]
        | some right =>
          have hlt' : 2 * i + 2 < addrs.length := (List.getElem?_eq_some_iff.1 hright).1
          simp only [enqueue_take hright]
          by_cases hroom' : 2 * i + 2 < capacity
          · have hnext := @ih (i + 1) (by omega) (by omega)
            rw [show 2 * (i + 1 + rounds) = 2 * (i + (rounds + 1)) by omega,
              show 2 * (i + 1) + 1 = 2 * i + 2 + 1 by omega] at hnext
            simpa [hroom'] using hnext
          · exact ⟨fun hm => by omega, fun _ => by simp [hroom']⟩
      · exact ⟨fun hm => by omega, fun _ => by simp [hroom]⟩

theorem InLevels.freshAddr_not_mem (h : InLevels s addrs vals) (hint : Nat) :
    s.heap.freshAddr hint ∉ addrs := by
  intro hmem
  rcases getElem?_of_mem hmem with ⟨i, hi⟩
  obtain ⟨v, hv⟩ : ∃ v, vals[i]? = some v :=
    ⟨_, getElem?_eq_getElem (by rw [h.length_eq]; exact (List.getElem?_eq_some_iff.1 hi).1)⟩
  have hcell := h.cell i _ v hi hv
  rw [s.heap.cell_freshAddr] at hcell
  cases hcell

theorem InLevels.alloc (h : InLevels s addrs vals) (hint : Nat) (node : Node) :
    InLevels ⟨s.heap.alloc hint node, s.root⟩ addrs vals :=
  ⟨h.nodup, h.length_eq, h.root, fun i a v ha hv =>
    (Heap.alloc_of_ne fun heq => h.freshAddr_not_mem hint
    (heq ▸ mem_of_getElem? ha)).trans (h.cell i a v ha hv)⟩

/-- The new node comes behind the others. -/
theorem InLevels.attach {parent : Nat} {value : Int} (h : InLevels ⟨heap, s.root⟩ addrs vals)
    (hne : addrs ≠ [])
    (hnew : newNode ∉ addrs) (hcell : heap.cell newNode = some ⟨value, none, none⟩)
    (hparent : addrs[(addrs.length - 1) / 2]? = some parent) :
    InLevels ⟨LevelOrder.attach heap addrs.length parent newNode, s.root⟩ (addrs ++
      [newNode]) (vals ++ [value]) := by
  have hpos := length_pos_iff.2 hne
  refine ⟨?_, by simp [h.length_eq], ?_, ?_⟩
  · exact nodup_append.2 ⟨h.nodup,
      nodup_singleton _, by simpa using fun a ha => ne_of_mem_of_not_mem ha hnew⟩
  · rw [getElem?_append_left hpos]
    exact h.root
  · have hold : ∀ j, j ≠ addrs.length → (addrs ++ [newNode])[j]? = addrs[j]? := by grind
    have hlast : (addrs ++ [newNode])[addrs.length]? = some newNode := by simp
    intro i a v ha hv
    by_cases hi : i = addrs.length
    · obtain rfl : a = newNode := by grind
      obtain rfl : v = value := by grind [h.length_eq]
      have hparent' : a ≠ parent := fun heq => hnew (heq ▸ mem_of_getElem? hparent)
      rw [hold _ (by omega), hold _ (by omega), getElem?_eq_none (by omega),
        getElem?_eq_none (by omega)]
      exact (Heap.adjust_of_ne hparent').trans hcell
    · rw [hold i hi] at ha
      have hv' : vals[i]? = some v := by grind [h.length_eq]
      have hnode : heap.cell a = _ := h.cell i a v ha hv'
      rcases eq_or_ne a parent with rfl | hp
      · have hi' : i = (addrs.length - 1) / 2 := by
          refine (getElem?_inj ?_ h.nodup).1 (ha.trans hparent.symm)
          exact (List.getElem?_eq_some_iff.1 ha).1
        refine (Heap.adjust_self hnode).trans ?_
        by_cases hodd : addrs.length % 2 = 1
        · have hm : 2 * i + 1 = addrs.length := by omega
          rw [if_pos hodd, hm, hlast, hold _ (by omega)]
        · have hm : 2 * i + 2 = addrs.length := by omega
          rw [if_neg hodd, hm, hlast, hold _ (by omega)]
      · have hi' : i ≠ (addrs.length - 1) / 2 := by
          rintro rfl
          exact hp (some.inj (ha.symm.trans hparent))
        rw [hold _ (by omega), hold _ (by omega)]
        exact (Heap.adjust_of_ne hp).trans hnode

theorem insertNode_eq (h : InLevels s addrs vals) (c : Int × Nat) :
    (addrs.length ≤ capacity → ∃ s' newNode, insertNode capacity s c = some s' ∧
      InLevels s' (addrs ++ [newNode]) (vals ++ [c.1])) ∧
    (capacity < addrs.length → insertNode capacity s c = none) := by
  have hroot := h.root
  cases addrs with
  | nil =>
    obtain rfl : vals = [] := length_eq_zero_iff.1 h.length_eq
    refine ⟨fun _ => ⟨_, _, by rw [insertNode, hroot]; rfl, nodup_singleton _, rfl, rfl,
      fun i a v ha hv => ?_⟩, nofun⟩
    rcases i with - | i
    · cases ha
      cases hv
      exact s.heap.alloc_self c.2 _
    · cases ha
  | cons root rest =>
    have hnew := h.freshAddr_not_mem c.2
    have hcell := s.heap.alloc_self c.2 ⟨c.1, none, none⟩
    have halloc := h.alloc c.2 ⟨c.1, none, none⟩
    have hqueue : createQueue.enqueue capacity root =
        if 0 < capacity then some ⟨(root :: rest).take (2 * 0 + 1), 0, 0 + 1⟩ else none := rfl
    have hinsert : insertNode capacity s c = (createQueue.enqueue capacity root).bind fun queue =>
        (insertLoop capacity (s.heap.alloc c.2 ⟨c.1, none, none⟩) (s.heap.freshAddr c.2)
          (capacity + 1) queue).bind
          fun heap => some ⟨heap, some root⟩ := by
      rw [insertNode, hroot]
      rfl
    rw [hinsert, hqueue]
    by_cases hpos : 0 < capacity
    · have hloop := @insertLoop_eq capacity _ (s.heap.freshAddr c.2) 0 (capacity + 1) _ _ _ halloc
        (by simp) hpos
      rw [if_pos hpos, bind_some]
      refine ⟨fun hm => ?_, fun hfull => by rw [hloop.2 hfull, bind_none]⟩
      rcases hloop.1 hm (by omega) with ⟨parent, hparent, hrun⟩
      rw [hrun]
      have hattach := halloc.attach (cons_ne_nil _ _) hnew hcell hparent
      exact ⟨_, _, rfl, hroot ▸ hattach⟩
    · exact ⟨fun hm => absurd hm (by simp; omega), fun _ => by rw [if_neg hpos, bind_none]⟩

/-- The calls succeed as long as the tree before the last one has at most `capacity` nodes. -/
theorem run_eq (h : InLevels s addrs vals) (hm : addrs.length ≤ capacity + 1)
    (calls : List (Int × Nat)) :
    (addrs.length + calls.length ≤ capacity + 1 → ∃ s' addrs',
      runCalls (insertNode capacity) s calls = some s' ∧
      InLevels s' addrs' (vals ++ calls.map Prod.fst)) ∧
    (capacity + 1 < addrs.length + calls.length →
      runCalls (insertNode capacity) s calls = none) := by
  induction calls generalizing s addrs vals with
  | nil => exact ⟨fun _ => ⟨s, addrs, rfl, by simpa using h⟩, fun hfull => by simp at hfull; omega⟩
  | cons c calls ih =>
    rw [length_cons, map_cons, append_cons]
    by_cases hroom : addrs.length ≤ capacity
    · rcases (insertNode_eq h c).1 hroom with ⟨s1, newNode, hstep, h1⟩
      have hrest := ih h1 (by simpa using hroom)
      simp only [length_append] at hrest
      rwa [runCalls, hstep, show addrs.length + (calls.length + 1) =
        addrs.length + 1 + calls.length by omega]
    · refine ⟨fun hle => by omega, fun _ => ?_⟩
      rw [runCalls, (insertNode_eq h c).2 (by omega), bind_none]

theorem inLevels_empty : InLevels empty [] [] := ⟨nodup_nil, rfl, rfl, nofun⟩

/-- With the storage of 100 places that `insertNode` asks for, the calls on the empty tree stay
inside it exactly up to the one with the number 101. -/
theorem insertions_fit_iff (calls : List (Int × Nat)) :
    (∃ s, runCalls (insertNode 100) empty calls = some s) ↔ calls.length ≤ 101 := by
  have hrun := @run_eq 100 _ _ _ inLevels_empty (by decide) calls
  simp only [length_nil, zero_add] at hrun
  constructor
  · rintro ⟨s, hs⟩
    by_contra hlt
    rw [hrun.2 (by omega)] at hs
    cases hs
  · intro hle
    rcases hrun.1 hle with ⟨s, _, hs, _⟩
    exact ⟨s, hs⟩

/-- The 102nd node runs out of the queue. -/
theorem insertion_102_overflows : runCalls (insertNode 100) empty (replicate 102 (1, 0)) = none :=
  (@run_eq 100 _ _ _ inLevels_empty (by decide) (replicate 102 (1, 0))).2 (by decide)

/-! ## The tree of an array -/

/-- `insertLevelOrder`; none if the number of a child is not an `int`. -/
def insertLevelOrder (array : List Int) (index n : Nat) : Option (BinaryTree Int) :=
  if index ≥ n then some .nil
  else do
    let value ← array[index]?
    if 2 * index + 2 > 2147483647 then none
    else
      let left ← insertLevelOrder array (2 * index + 1) n
      let right ← insertLevelOrder array (2 * index + 2) n
      some (.node value left right)
termination_by n - index

def findDepth : BinaryTree Int → Nat
  | .nil => 0
  | .node _ left right =>
    (if findDepth left > findDepth right then findDepth left else findDepth right) + 1

/-- The nodes in memory from a pointer on are those of the tree. -/
def TreeAt (heap : Heap Node) : Option Nat → BinaryTree Int → Prop
  | root, .nil => root = none
  | root, .node value left right => ∃ a node, root = some a ∧ heap.cell a = some node ∧
    node.data = value ∧
    TreeAt heap node.left left ∧ TreeAt heap node.right right

variable {array : List Int} {n : Nat} {tree : BinaryTree Int}

/-- The tree of a number, what it has in memory and how deep it is. -/
theorem insertLevelOrder_spec (hn : array.length < 2 ^ 30) (i : Nat) :
    ∃ tree, insertLevelOrder array i array.length = some tree ∧
      (∀ s addrs, InLevels s addrs array → TreeAt s.heap addrs[i]? tree) ∧
      array.length < (i + 1) * 2 ^ findDepth tree ∧ ∀ d, findDepth tree = d + 1 →
        (i + 1) * 2 ^ d ≤ array.length := by
  induction hk : array.length - i using Nat.strongRecOn generalizing i with
  | ind k ih =>
  rw [insertLevelOrder]
  by_cases hi : i ≥ array.length
  · refine ⟨.nil, if_pos hi, fun s addrs h => ?_, by simp [findDepth]; omega, nofun⟩
    rw [getElem?_eq_none (by rw [← h.length_eq]; exact hi)]
    rfl
  · rcases ih _ (by omega) (2 * i + 1) rfl with ⟨left, hleft, hlmem, hldeep, hlfit⟩
    rcases ih _ (by omega) (2 * i + 2) rfl with ⟨right, hright, hrmem, hrdeep, hrfit⟩
    obtain ⟨value, hvalue⟩ : ∃ v, array[i]? = some v := ⟨_, getElem?_eq_getElem (by omega)⟩
    refine ⟨.node value left right, ?_, ?_, ?_⟩
    · rw [if_neg hi, hvalue]
      simp [hleft, hright]
      omega
    · intro s addrs h
      obtain ⟨a, ha⟩ : ∃ a, addrs[i]? = some a :=
        ⟨_, getElem?_eq_getElem (by rw [← h.length_eq]; omega)⟩
      exact ⟨a, _, ha, h.cell i a value ha hvalue, rfl, hlmem s addrs h, hrmem s addrs h⟩
    · -- the left subtree is not less deep
      have hle : findDepth right ≤ findDepth left := by
        by_contra hlt
        obtain ⟨d, hd⟩ : ∃ d, findDepth right = d + 1 := ⟨findDepth right - 1, by omega⟩
        have hpow : 2 ^ findDepth left ≤ 2 ^ d := Nat.pow_le_pow_right (by decide) (by omega)
        have hmul := Nat.mul_le_mul (show 2 * i + 1 + 1 ≤ 2 * i + 2 + 1 by omega) hpow
        have := hrfit d hd
        omega
      have hdepth : findDepth (.node value left right) = findDepth left + 1 := by
        rw [findDepth]
        split_ifs <;> omega
      have hdouble : ∀ d, (i + 1) * 2 ^ (d + 1) = (2 * i + 1 + 1) * 2 ^ d := by
        intro d
        rw [Nat.pow_succ', ← mul_assoc, show (i + 1) * 2 = 2 * i + 1 + 1 by omega]
      refine ⟨by rwa [hdepth, hdouble], fun d hd => ?_⟩
      obtain rfl : findDepth left = d := by omega
      rcases hcases : findDepth left with - | d
      · omega
      · rw [hdouble]
        exact hlfit d hcases

theorem insertLevelOrder_none (hi : i < array.length)
    (h : 2 * i + 2 ≤ 2147483647 → insertLevelOrder array (2 * i + 1) array.length = none) :
    insertLevelOrder array i array.length = none := by
  rw [insertLevelOrder, if_neg (not_le.2 hi), getElem?_eq_getElem hi]
  split_ifs with hint
  · rfl
  · rw [h (not_lt.1 hint)]
    rfl

/-- The leftmost path has the numbers `2 ^ j - 1`, and the one for `j = 30` has no number for its
right child. -/
theorem insertLevelOrder_overflows (hn : 2 ^ 30 ≤ array.length) (k : Nat) (hk : k ≤ 30) :
    insertLevelOrder array (2 ^ (30 - k) - 1) array.length = none := by
  induction k with
  | zero => exact insertLevelOrder_none (by omega) fun hint => absurd hint (by decide)
  | succ k ih =>
    have hpow : 2 ^ (30 - k) = 2 * 2 ^ (30 - (k + 1)) := by
      rw [← Nat.pow_succ', show (30 - (k + 1)).succ = 30 - k by omega]
    have hle : 2 ^ (30 - (k + 1)) ≤ 2 ^ 30 := Nat.pow_le_pow_right (by decide) (Nat.sub_le _ _)
    have hpos := Nat.two_pow_pos (30 - (k + 1))
    refine insertLevelOrder_none (by omega) fun _ => ?_
    rw [show 2 * (2 ^ (30 - (k + 1)) - 1) + 1 = 2 ^ (30 - k) - 1 by omega]
    exact ih (by omega)

/-- For fewer than `2 ^ 30` values the insertions, with a queue that is large enough, and
`insertLevelOrder` build the same tree, of the depth `⌊log2 n⌋ + 1`; for more values
`insertLevelOrder` leaves the range of `int`. -/
theorem builders_agree (calls : List (Int × Nat)) : (calls.length < 2 ^ 30 →
      ∃ tree, insertLevelOrder (calls.map Prod.fst) 0 calls.length = some tree ∧
      (∀ capacity, calls.length ≤ capacity + 1 →
        ∃ s, runCalls (insertNode capacity) empty calls = some s ∧ TreeAt s.heap s.root tree) ∧
      (1 ≤ calls.length → findDepth tree = Nat.log 2 calls.length + 1)) ∧
    (2 ^ 30 ≤ calls.length → insertLevelOrder (calls.map Prod.fst) 0 calls.length = none) := by
  have hlen : (calls.map Prod.fst).length = calls.length := length_map _
  rw [← hlen]
  constructor
  · intro hn
    rcases insertLevelOrder_spec hn 0 with ⟨tree, htree, hmem, hdeep, hfit⟩
    refine ⟨tree, htree, fun capacity hcapacity => ?_, fun hpos => ?_⟩
    · rcases (@run_eq capacity _ _ _ inLevels_empty (Nat.zero_le _) calls).1 (by simpa
        using hcapacity)
        with ⟨s, addrs, hrun, h⟩
      refine ⟨s, hrun, ?_⟩
      rw [h.root]
      exact hmem s addrs h
    · rw [Nat.zero_add, Nat.one_mul] at hdeep
      rcases hd : findDepth tree with - | d
      · rw [hd] at hdeep
        omega
      · rw [hd] at hdeep
        have hle := hfit d hd
        rw [Nat.one_mul] at hle
        rw [Nat.log_eq_of_pow_le_of_lt_pow hle hdeep]
  · exact fun hn => insertLevelOrder_overflows hn 30 (Nat.le_refl _)

/-- The last node would have the child 2³¹. -/
theorem array_builder_overflows : insertLevelOrder (replicate (2 ^ 30) 0) 0 (2 ^ 30) = none := by
  have h := @insertLevelOrder_overflows (replicate (2 ^ 30) 0) (by rw [length_replicate])
    30 (le_refl _)
  rwa [length_replicate] at h

end SystemsLab.LevelOrder
