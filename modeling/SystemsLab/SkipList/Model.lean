import SystemsLab.CLib.CArray
import SystemsLab.Data.CallSequence
import SystemsLab.Data.Heap

/-!
# The skip list of `skip-list.c`

A node is a cell with its key and its `forward` array, whose length is the level of the node plus
one. Reading or writing behind the array, through `NULL` or through a freed node makes a function
fail, and so does reading an entry of `update` that was not set.

The level that `generateRandomLevel` returns and the address that `malloc` returns are inputs of a
call (the address is a hint, see `Heap.alloc`).
-/

namespace SystemsLab.SkipList

open CallSequence

abbrev Ptr := Nat

def MAX_LEVEL : Nat := 6

structure SkipListNode where
  key : Int
  forward : List (Option Ptr)

/-- The `SkipList` of the source, with its memory. -/
structure State where
  heap : Heap SkipListNode
  level : Nat
  header : Ptr

def createNode (key : Int) (level : Nat) : SkipListNode := ⟨key, List.replicate (level + 1) none⟩

def createSkipList : State := ⟨Heap.empty.alloc 0 (createNode (-1) MAX_LEVEL), 0, 0⟩

/-- The loop of `generateRandomLevel`, `r` steps before `MAX_LEVEL`; the coin that is tossed at a
level says whether `rand()/(double)RAND_MAX < P_FACTOR`. -/
def raiseLevel (coins : Nat → Bool) : Nat → Nat → Nat
  | 0, level => level
  | r + 1, level => if coins level then raiseLevel coins r (level + 1) else level

def generateRandomLevel (coins : Nat → Bool) : Nat := raiseLevel coins MAX_LEVEL 0

theorem raiseLevel_le (coins : Nat → Bool) (r i : Nat) : raiseLevel coins r i ≤ i + r := by
  induction r generalizing i with
  | zero => exact le_rfl
  | succ r ih =>
    rw [raiseLevel]
    split_ifs
    · have hstep := ih (i + 1)
      omega
    · omega

theorem raiseLevel_eq {level r i : Nat} (hi : i ≤ level) (hlevel : level ≤ i + r) :
    raiseLevel (fun j => decide (j < level)) r i = level := by
  induction r generalizing i with
  | zero => exact le_antisymm hi hlevel
  | succ r ih =>
    by_cases hlt : i < level
    · simp only [raiseLevel, hlt]
      exact ih hlt (by omega)
    · simp only [raiseLevel, hlt, decide_false, Bool.false_eq_true, if_false]
      omega

/-- The levels that can be returned are exactly `0`, …, `MAX_LEVEL`. -/
theorem exists_generateRandomLevel_iff {level : Nat} :
    (∃ coins, generateRandomLevel coins = level) ↔ level ≤ MAX_LEVEL := by
  constructor
  · rintro ⟨coins, rfl⟩
    have hle := raiseLevel_le coins MAX_LEVEL 0
    rwa [Nat.zero_add] at hle
  · intro hlevel
    exact ⟨_, raiseLevel_eq (Nat.zero_le level) (by rwa [Nat.zero_add])⟩

/-! ## Memory access -/

def getForward (heap : Heap SkipListNode) (node : Ptr) (i : Nat) : Option (Option Ptr) := do
  let n ← heap.cell node
  n.forward[i]?

def getKey (heap : Heap SkipListNode) (node : Ptr) : Option Int :=
  (heap.cell node).map SkipListNode.key

def setForward (heap : Heap SkipListNode) (node : Ptr) (i : Nat) (p : Option Ptr) :
    Option (Heap SkipListNode) := do
  let n ← heap.cell node
  if i < n.forward.length then
    heap.modify node fun n => { n with forward := n.forward.set i p }
  else none

/-! ## Search -/

/-- Whether the loop `while (current->forward[i] && current->forward[i]->key < key)` goes on. -/
def isBefore (heap : Heap SkipListNode) (key : Int) : Option Ptr → Option Bool
  | none => some false
  | some p => (getKey heap p).map fun k => decide (k < key)

/-- The inner loop of `search`, `insert` and `delete` on one level. -/
def advance (heap : Heap SkipListNode) (key : Int) (i : Nat) : Nat → Ptr → Option Ptr
  | 0, _ => none
  | fuel + 1, current => do
      let p ← getForward heap current i
      let go ← isBefore heap key p
      if go then p.bind (advance heap key i fuel) else some current

/-- The outer loop of `search`; `k` is `iterator + 1`. -/
def descend (heap : Heap SkipListNode) (key : Int) : Nat → Ptr → Option Ptr
  | 0, current => some current
  | k + 1, current => do
      let current ← advance heap key k heap.brk current
      descend heap key k current

abbrev Update := CArray (Option Ptr) (MAX_LEVEL + 1)

/-- The outer loop of `insert` and `delete`, which records where it went down. -/
def findUpdate (heap : Heap SkipListNode) (key : Int) : Nat → Ptr → Update → Option (Ptr × Update)
  | 0, current, update => some (current, update)
  | k + 1, current, update => do
      let current ← advance heap key k heap.brk current
      let update ← update.set k (some current)
      findUpdate heap key k current update

/-- `current && current->key == key` -/
def hasKey (heap : Heap SkipListNode) (key : Int) : Option Ptr → Option Bool
  | none => some false
  | some p => (getKey heap p).map fun k => decide (k = key)

def search (list : State) (key : Int) : Option (Option Ptr) := do
  let current ← descend list.heap key (list.level + 1) list.header
  let current ← getForward list.heap current 0
  let found ← hasKey list.heap key current
  some (if found then current else none)

/-! ## Insertion -/

/-- `for (iterator = i; iterator <= newLevel; iterator++) update[iterator] = list->header;` with `r`
entries still to set. -/
def patchUpdate (header : Ptr) : Nat → Nat → Update → Option Update
  | 0, _, update => some update
  | r + 1, i, update => do
      let update ← update.set i (some header)
      patchUpdate header r (i + 1) update

/-- The entries for new levels, which start at the old level of the list. -/
def patchLevels (list : State) (newLevel : Nat) (update : Update) : Option Update :=
  if newLevel > list.level then
    -- the entry of the old top level is overwritten too
    patchUpdate list.header (newLevel + 1 - list.level) list.level update
  else some update

/-- The last loop of `insert`, with `r` levels still to link. -/
def linkLevels (update : Update) (newNode : Ptr) :
    Nat → Nat → Heap SkipListNode → Option (Heap SkipListNode)
  | 0, _, heap => some heap
  | r + 1, i, heap => do
      let u ← update.get i
      let u ← u
      let p ← getForward heap u i
      let heap ← setForward heap newNode i p
      let heap ← setForward heap u i (some newNode)
      linkLevels update newNode r (i + 1) heap

/-- The branch of `insert` for a new key. -/
def insertNode (list : State) (key : Int) (newLevel hint : Nat) (update : Update) :
    Option State := do
  let update ← patchLevels list newLevel update
  let newNode := list.heap.freshAddr hint
  let heap := list.heap.alloc hint (createNode key newLevel)
  let heap ← linkLevels update newNode (newLevel + 1) 0 heap
  some { list with heap := heap, level := max list.level newLevel }

def insert (list : State) (key : Int) (newLevel hint : Nat) : Option State := do
  let (current, update) ←
    findUpdate list.heap key (list.level + 1) list.header (CArray.fill none)
  let current ← getForward list.heap current 0
  let found ← hasKey list.heap key current
  if found then some list else insertNode list key newLevel hint update

/-! ## Deletion -/

/-- The loop of `delete` that takes the node out, with `r` levels still to visit. -/
def unlinkLevels (update : Update) (current : Ptr) :
    Nat → Nat → Heap SkipListNode → Option (Heap SkipListNode)
  | 0, _, heap => some heap
  | r + 1, i, heap => do
      let u ← update.get i
      let u ← u
      let p ← getForward heap u i
      if p = some current then do
        let q ← getForward heap current i
        let heap ← setForward heap u i q
        unlinkLevels update current r (i + 1) heap
      -- `break`: the node does not reach this level
      else some heap

/-- `while (list->level > 0 && list->header->forward[list->level] == NULL) list->level--;` -/
def lowerLevel (heap : Heap SkipListNode) (header : Ptr) : Nat → Option Nat
  | 0 => some 0
  | level + 1 => do
      let p ← getForward heap header (level + 1)
      if p = none then lowerLevel heap header level else some (level + 1)

/-- The branch of `delete` for a key that is there. -/
def deleteNode (list : State) (current : Ptr) (update : Update) : Option State := do
  let heap ← unlinkLevels update current (list.level + 1) 0 list.heap
  let heap := heap.free current
  let level ← lowerLevel heap list.header list.level
  some { list with heap := heap, level := level }

def delete (list : State) (key : Int) : Option State := do
  let (current, update) ←
    findUpdate list.heap key (list.level + 1) list.header (CArray.fill none)
  let current ← getForward list.heap current 0
  let found ← hasKey list.heap key current
  if found then current.bind fun p => deleteNode list p update else some list

/-! ## Reading -/

/-- The loop of `display` on one level, from a node on. -/
def walkLevel (heap : Heap SkipListNode) (i : Nat) : Nat → Option Ptr → Option (List Int)
  | _, none => some []
  | 0, some _ => none
  | fuel + 1, some node => do
      let key ← getKey heap node
      let p ← getForward heap node i
      let rest ← walkLevel heap i fuel p
      some (key :: rest)

def levelKeys (list : State) (i : Nat) : Option (List Int) := do
  let p ← getForward list.heap list.header i
  walkLevel list.heap i list.heap.brk p

/-! ## Calls -/

inductive Call where
  -- with the level that is drawn and the address that `malloc` would like to hand out
  | insert (key : Int) (level : Fin (MAX_LEVEL + 1)) (hint : Nat)
  | delete (key : Int)

def call (list : State) : Call → Option State
  | .insert key level hint => insert list key level hint
  | .delete key => delete list key

def run (calls : List Call) : Option State := runCalls call createSkipList calls

def Call.toSetCall : Call → SetCall Int
  | .insert key _ _ => .insert key
  | .delete key => .delete key

end SystemsLab.SkipList
