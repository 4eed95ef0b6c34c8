import SystemsLab.CLib.CString
import SystemsLab.Data.CallSequence
import SystemsLab.Data.ChainBuckets

/-!
# `day-4(Hash_Table)/hash-table-with-chaining.c`

The nodes live in a heap; a run fails if it follows a pointer to memory that is not allocated, frees
a node twice or copies a key that does not fit.  The hint of `insert` stands for the choice of
`malloc`, which does not run out of memory.  The messages are left out.

The loops over a chain get the number of addresses ever used as a bound and fail at it.

`Rep t items` says that the chains of the table are the lists `items`.  `search` looks a key up in
its chain, `delete` takes a node out of it, and `insert` puts a node at its end or changes the last
one.

An insertion that finds its key in front of the last node frees the new node, changes the value,
goes on and links the freed node to the last one (`insert_dangles`).
-/

namespace SystemsLab.ChainedTable

open CallSequence

def TABLE_SIZE : Nat := 10

def KEY_SIZE : Nat := 50

structure Node where
  key : CBuf KEY_SIZE
  value : Int
  next : Option Nat

structure Table where
  hashTable : Fin TABLE_SIZE → Option Nat
  heap : Heap Node

/-- `hash`, with `char` signed. -/
def hash (key : CString) : Fin TABLE_SIZE :=
  let hashValue : UInt32 := key.bytes.foldl (fun h c => h * 31 + c.toInt8.toInt32.toUInt32) 0
  ⟨hashValue.toNat % TABLE_SIZE, Nat.mod_lt _ (by decide)⟩

def init : Table := ⟨fun _ => none, .empty⟩

def freeNode (heap : Heap Node) (a : Nat) : Option (Heap Node) :=
  (heap.cell a).map fun _ => heap.free a

/-- `temp->value = value; free(newNode);` -/
def update (heap : Heap Node) (temp : Nat) (value : Int) (newNode : Nat) : Option (Heap Node) := do
  let heap ← heap.modify temp fun n => { n with value := value }
  freeNode heap newNode

/-- The loop of `insert`, which ends at the last node of the chain. -/
def insertLoop (key : CString) (value : Int) (newNode : Nat) :
    Nat → Heap Node → Option Nat → Option (Heap Node × Nat)
  | 0, _, _ => none
  | _ + 1, _, none => none
  | fuel + 1, heap, some temp => do
      let node ← heap.cell temp
      if node.next = none then some (heap, temp)
      else do
        -- the loop goes on after a match
        let heap ← if node.key.str = key then update heap temp value newNode else some heap
        let node ← heap.cell temp
        insertLoop key value newNode fuel heap node.next

/-- The part of `insert` behind the loop. -/
def insertLast (key : CString) (value : Int) (newNode : Nat) (heap : Heap Node) (temp : Nat) :
    Option (Heap Node) := do
  let node ← heap.cell temp
  if node.key.str = key then update heap temp value newNode
  else heap.modify temp fun n => { n with next := some newNode }

def insert (t : Table) (key : CString) (value : Int) (hint : Nat) : Option Table := do
  let newNode := t.heap.freshAddr hint
  let newKey ← CBuf.strcpy key
  let heap := t.heap.alloc hint ⟨newKey, value, none⟩
  if t.hashTable (hash key) = none then
    some ⟨Function.update t.hashTable (hash key) (some newNode), heap⟩
  else do
    let (heap, temp) ← insertLoop key value newNode (heap.brk + 1) heap (t.hashTable (hash key))
    let heap ← insertLast key value newNode heap temp
    some { t with heap }

def searchLoop (heap : Heap Node) (key : CString) : Nat → Option Nat → Option Int
  | 0, _ => none
  | _ + 1, none => some (-1)
  | fuel + 1, some temp => do
      let node ← heap.cell temp
      if node.key.str = key then some node.value else searchLoop heap key fuel node.next

def search (t : Table) (key : CString) : Option Int :=
  searchLoop t.heap key (t.heap.brk + 1) (t.hashTable (hash key))

def deleteLoop (t : Table) (key : CString) : Nat → Option Nat → Option Nat → Option Table
  | 0, _, _ => none
  | _ + 1, _, none => some t
  | fuel + 1, prev, some temp => do
      let node ← t.heap.cell temp
      if node.key.str = key then do
        let t ←
          match prev with
          | none => some { t with hashTable := Function.update t.hashTable (hash key) node.next }
          | some before => do
              let heap ← t.heap.modify before fun n => { n with next := node.next }
              some { t with heap }
        let heap ← freeNode t.heap temp
        some { t with heap }
      else deleteLoop t key fuel (some temp) node.next

def delete (t : Table) (key : CString) : Option Table :=
  deleteLoop t key (t.heap.brk + 1) none (t.hashTable (hash key))

inductive TableCall where
  | insert (key : CString) (value : Int) (hint : Nat)
  | delete (key : CString)

def TableCall.key : TableCall → CString
  | .insert key _ _ | .delete key => key

def call (t : Table) : TableCall → Option Table
  | .insert key value hint => insert t key value hint
  | .delete key => delete t key

def run (calls : List TableCall) : Option Table := runCalls call init calls

/-! ## The chains -/

open Chain ChainBuckets KeyedList Option Heap
open List hiding lookup lookup_cons lookup_eq_none_iff

abbrev Item := ChainBuckets.Item CString Int

def nextOf (heap : Heap Node) (a : Nat) : Option (Option Nat) := (heap.cell a).map Node.next

def mem (heap : Heap Node) : Memory CString Int := .ofHeap heap Node.next fun n =>
    (n.key.str, n.value)

abbrev Bucket (heap : Heap Node) (first : Option Nat) (i : Fin TABLE_SIZE) (l : List Item) : Prop :=
  ChainBuckets.Bucket (mem heap) hash first i l

def Rep (t : Table) (items : Fin TABLE_SIZE → List Item) : Prop :=
  Chained (mem t.heap) hash t.hashTable items

variable {heap : Heap Node} {first : Option Nat} {i : Fin TABLE_SIZE} {x : Item}
  {before after : List Item}

theorem node_eq (h : Bucket heap first i (before ++ x :: after)) :
    ∃ node, heap.cell x.addr = some node ∧ node.key.str = x.key ∧ node.value = x.val ∧
      node.next = (after.map Item.addr).head? := by
  rcases h.cell_eq with ⟨node, hcell, hdata, hnext⟩
  exact ⟨node, hcell, (Prod.mk.inj hdata).1, (Prod.mk.inj hdata).2, hnext⟩

/-! ## Searching -/

variable {t : Table} {items : Fin TABLE_SIZE → List Item} {key : CString} {l : List Item}
  {fuel : Nat}

theorem searchLoop_eq (h : Bucket heap first i (before ++ l)) (hfuel : l.length < fuel) :
    searchLoop heap key fuel (l.map Item.addr).head? =
      some (((lookup Item.key key l).map Item.val).getD (-1)) := by
  induction l generalizing before fuel with
  | nil =>
    rcases fuel with _ | fuel
    · omega
    rfl
  | cons x l ih =>
    rcases fuel with _ | fuel
    · omega
    rcases node_eq h with ⟨node, hcell, hkey, hvalue, hnext⟩
    rw [← singleton_append, ← append_assoc] at h
    rw [map_cons, head?_cons, searchLoop, hcell, lookup_cons, bind_eq_bind, bind_some, hkey, hnext]
    split
    · rw [hvalue]
      rfl
    · exact ih h (Nat.lt_of_succ_lt_succ hfuel)

theorem search_eq (h : Rep t items) (key : CString) :
    search t key = some (((lookup Item.key key (items (hash key))).map Item.val).getD (-1)) := by
  have hbucket : Bucket t.heap (t.hashTable (hash key)) (hash key) ([] ++ items (hash key)) := h _
  rw [search, (h _).start]
  exact searchLoop_eq hbucket (Nat.lt_succ_of_le ((h _).length_le))

/-! ## Deleting -/

theorem deleteLoop_skip (h : Bucket t.heap first i (before ++ l ++ after))
    (hkeys : key ∉ l.map Item.key) (fuel : Nat) (prev : Option Nat) :
    deleteLoop t key (l.length + fuel) prev ((l ++ after).map Item.addr).head? =
      deleteLoop t key fuel ((l.map Item.addr).getLast?.or prev) (after.map Item.addr).head? := by
  induction l generalizing before prev with
  | nil =>
    rw [length_nil, zero_add]
    rfl
  | cons y l ih =>
    rw [map_cons, mem_cons, not_or] at hkeys
    rw [append_assoc, cons_append] at h
    rcases node_eq h with ⟨node, hcell, hkey, -, hnext⟩
    rw [← singleton_append, ← append_assoc, ← append_assoc] at h
    -- `prev` is the last node that was passed
    have hlast : ((y :: l).map Item.addr).getLast?.or prev =
      (l.map Item.addr).getLast?.or (some y.addr) := by
      rw [map_cons, getLast?_cons]
      cases (l.map Item.addr).getLast? with
      | none => rfl
      | some c => rfl
    have hne : ¬node.key.str = key := by
      rw [hkey]
      exact Ne.symm hkeys.1
    rw [hlast, ← ih h hkeys.2, length_cons, add_right_comm, cons_append, map_cons,
      head?_cons, deleteLoop, hcell, bind_eq_bind, bind_some, if_neg hne, hnext]

theorem delete_eq (h : Rep t items) (hsplit : items (hash key) = l ++ after)
    (hkeys : key ∉ l.map Item.key) :
    ∃ fuel, delete t key = deleteLoop t key (fuel + 1)
      (l.map Item.addr).getLast? (after.map Item.addr).head? := by
  have hbucket := h (hash key)
  rw [hsplit] at hbucket
  have hwhole : Bucket t.heap (t.hashTable (hash key)) (hash key) ([] ++ l ++ after) := hbucket
  have hle := hbucket.length_le
  rw [length_append] at hle
  refine ⟨t.heap.brk - l.length, ?_⟩
  have hskip := deleteLoop_skip hwhole hkeys (t.heap.brk - l.length + 1) none
  rw [or_none, ← hbucket.start] at hskip
  rw [delete, ← hskip]
  congr 1
  omega

theorem delete_miss (h : Rep t items) (hkey : key ∉ (items (hash key)).map Item.key) :
    delete t key = some t := by
  rcases delete_eq h (append_nil _).symm hkey with ⟨fuel, hrun⟩
  rw [hrun]
  rfl

theorem delete_hit (h : Rep t items) (hfind : lookup Item.key key (items (hash key)) = some x) :
    ∃ t', delete t key = some t' ∧
      Rep t' (Function.update items (hash key) ((items (hash key)).eraseP fun y =>
        y.key = key)) := by
  rcases exists_split hfind with ⟨before, after, hsplit, -, herase⟩
  have hxkey := (mem_of_lookup hfind).2
  have hbucket := h (hash key)
  rw [hsplit] at hbucket
  have hkeys : key ∉ before.map Item.key := by
    intro hin
    have hnot := (nodup_map_middle.1 hbucket.keys).1
    rw [hxkey, map_append, mem_append, not_or] at hnot
    exact hnot.1 hin
  rcases delete_eq h hsplit hkeys with ⟨fuel, hrun⟩
  rcases node_eq hbucket with ⟨node, hcell, hkey, -, hnext⟩
  rw [hrun, map_cons, head?_cons, deleteLoop, hcell, bind_eq_bind, bind_some,
    if_pos (hkey.trans hxkey), hnext, herase]
  have hfree := Chained.free h hsplit (f := fun n => { n with next := (after.map Item.addr).head? })
    (by simp) (by simp)
  cases hprev : (before.map Item.addr).getLast? with
  | none =>
    rw [getLast?_eq_none_iff, map_eq_nil_iff] at hprev
    subst hprev
    rw [map_nil, getLast?_nil, assign_none] at hfree
    refine ⟨⟨Function.update t.hashTable (hash key) _, t.heap.free x.addr⟩, ?_, hfree⟩
    simp [freeNode, hcell]
  | some p =>
    have hp := mem_of_getLast? hprev
    rw [hprev, Chained.start_eq h hsplit (by rintro rfl; cases hp)] at hfree
    rcases mem_map.1 hp with ⟨y, hy, rfl⟩
    have hxp : some y.addr ≠ some x.addr := fun heq =>
      hbucket.rest_ne (mem_append_left _ hy) (some.inj heq)
    rcases hbucket.exists_cell (mem_append_left _ hy) with ⟨pnode, hpnode⟩
    refine ⟨⟨t.hashTable, (t.heap.assign (some y.addr) _).free x.addr⟩, ?_, hfree⟩
    simp [modify_assign, hpnode, freeNode, assign_of_ne hxp, hcell]

/-! ## Inserting -/

variable {y : Item} {newNode : Nat}

theorem insertLoop_skip (h : Bucket heap first i (before ++ l ++ x :: after))
    (hkeys : key ∉ l.map Item.key) (value : Int) (newNode fuel : Nat) :
    insertLoop key value newNode (l.length + fuel) heap ((l ++ x :: after).map Item.addr).head? =
      insertLoop key value newNode fuel heap (some x.addr) := by
  induction l generalizing before with
  | nil =>
    rw [length_nil, zero_add]
    rfl
  | cons y l ih =>
    rw [map_cons, mem_cons, not_or] at hkeys
    rw [append_assoc, cons_append] at h
    rcases node_eq h with ⟨node, hcell, hkey, -, hnext⟩
    rw [← singleton_append, ← append_assoc, ← append_assoc] at h
    have hne : ¬node.key.str = key := by
      rw [hkey]
      exact Ne.symm hkeys.1
    have hmore : ¬node.next = none := by
      rw [hnext]
      simp
    rw [← ih h hkeys.2, length_cons, add_right_comm, cons_append, map_cons,
      head?_cons, insertLoop, hcell]
    simp only [bind_eq_bind, bind_some, if_neg hmore, if_neg hne, hcell]
    rw [hnext]

theorem insertLoop_last (h : Bucket heap first i (before ++ l ++ [x]))
    (hkeys : key ∉ l.map Item.key) (value : Int) (newNode : Nat) (hfuel : l.length < fuel) :
    insertLoop key value newNode fuel heap ((l ++ [x]).map Item.addr).head? =
      some (heap, x.addr) := by
  obtain ⟨fuel, rfl⟩ : ∃ n, fuel = l.length + (n + 1) := ⟨fuel - l.length - 1, by omega⟩
  rcases node_eq h with ⟨node, hcell, -, -, hnext⟩
  have hend : node.next = none := hnext
  rw [insertLoop_skip h hkeys, insertLoop, hcell, bind_eq_bind, bind_some, if_pos hend]

theorem update_eq (h : Bucket heap first i (before ++ x :: after)) (value : Int) {node : Node}
    (hnew : heap.cell newNode = some node) (hne : ∀ y ∈ before ++ x :: after, y.addr ≠ newNode) :
    ∃ heap', update heap x.addr value newNode = some heap' ∧
      Bucket heap' first i (before ++ { x with val := value } :: after) ∧
        heap'.cell newNode = none ∧
      ∀ a, a ≠ x.addr → a ≠ newNode → heap'.cell a = heap.cell a := by
  have hxnew : x.addr ≠ newNode := hne x (mem_append_right _ mem_cons_self)
  rcases node_eq h with ⟨xnode, hcell, hkey, -, -⟩
  let heap' := (heap.adjust x.addr fun n => { n with value := value }).free newNode
  have hself : heap'.cell x.addr = some { xnode with value := value } :=
    (free_of_ne hxnew).trans (adjust_self hcell)
  have hsame : ∀ a, a ≠ x.addr → a ≠ newNode → heap'.cell a = heap.cell a := fun a hx hn =>
    (free_of_ne hn).trans (adjust_of_ne hx)
  refine ⟨heap', ?_, h.setVal (fun y hy => ?_) ?_ fun y hy => ?_, Function.update_self .., hsame⟩
  · simp only [update, modify_eq hcell, bind_eq_bind, bind_some, freeNode,
      adjust_of_ne (Ne.symm hxnew), hnew]
    rfl
  · have hlink : nextOf heap' y.addr =
      nextOf (heap.adjust x.addr fun n => { n with value := value }) y.addr := by
      rw [nextOf, nextOf, free_of_ne (hne y hy)]
    exact hlink.trans (map_adjust (by simp) _)
  · simp [mem, Memory.ofHeap, hself, hkey]
  · have hmem : y ∈ before ++ x :: after :=
      ((sublist_cons_self x after).append_left before).subset hy
    exact (Memory.ofHeap_congr (hsame _ (h.rest_ne hy) (hne y hmem))).2

theorem exists_strcpy (hlen : key.bytes.length < KEY_SIZE) :
    ∃ newKey : CBuf KEY_SIZE, CBuf.strcpy key = some newKey ∧ newKey.str = key :=
  ⟨⟨key, hlen⟩, dif_pos hlen, rfl⟩

theorem insert_first (h : Rep t items) (hlen : key.bytes.length < KEY_SIZE)
    (value : Int) (hint : Nat) (hitems : items (hash key) = []) :
    ∃ t', insert t key value hint = some t' ∧ Rep t' (Function.update items (hash key)
      (items (hash key) ++ [⟨t.heap.freshAddr hint, key, value⟩])) := by
  rcases exists_strcpy hlen with ⟨newKey, hcopy, hkey⟩
  have hempty : t.hashTable (hash key) = none := by
    rw [(h _).start, hitems]
    rfl
  refine ⟨⟨Function.update t.hashTable (hash key) (some (t.heap.freshAddr hint)),
    t.heap.alloc hint ⟨newKey, value, none⟩⟩, ?_, ?_⟩
  · simp [insert, hcopy, if_pos hempty]
  · have hbucket := h (hash key)
    rw [hitems] at hbucket ⊢
    rw [hempty] at hbucket
    have hpush : Bucket (t.heap.alloc hint ⟨newKey, value, none⟩)
      (some (t.heap.freshAddr hint)) (hash key)
        ([] ++ [⟨t.heap.freshAddr hint, key, value⟩]) := by
      refine hbucket.push (x := ⟨t.heap.freshAddr hint, key, value⟩) rfl (by simp) ⟨?_,
        ?_⟩ nofun (by simp)
        (by simp)
      · simp [mem, Memory.ofHeap]
      · simp [mem, Memory.ofHeap, hkey]
    exact h.update hpush fun j _ y hy =>
      Memory.ofHeap_congr (alloc_of_ne ((h j).addr_ne_freshAddr hy hint))

theorem insert_eq (h : Rep t items) (hitems : items (hash key) = l ++ [x]) {newKey : CBuf KEY_SIZE}
    (hcopy : CBuf.strcpy key = some newKey) (value : Int) (hint : Nat)
    (hkeys : key ∉ l.map Item.key) :
    insert t key value hint = (insertLast key value (t.heap.freshAddr hint)
      (t.heap.alloc hint ⟨newKey, value, none⟩) x.addr).bind fun heap => some { t with heap } := by
  have hbucket := (h (hash key)).alloc hint ⟨newKey, value, none⟩
  have hfuel := hbucket.length_le
  rw [hitems] at hbucket hfuel
  rw [length_append] at hfuel
  have hwhole : Bucket (t.heap.alloc hint ⟨newKey, value, none⟩) (t.hashTable (hash key)) (hash key)
      ([] ++ l ++ [x]) := hbucket
  have hloop := insertLoop_last hwhole hkeys value (t.heap.freshAddr hint)
    (Nat.lt_succ_of_le (Nat.le_of_add_right_le hfuel))
  have hfull : ¬t.hashTable (hash key) = none := by
    rw [(h _).start, hitems]
    simp
  rw [← hitems, ← (h _).start] at hloop
  simp [insert, hcopy, if_neg hfull, hloop]

theorem insert_match (h : Rep t items) (hitems : items (hash key) = l ++ [x]) (hxkey : x.key = key)
    (hlen : key.bytes.length < KEY_SIZE) (value : Int) (hint : Nat) :
    ∃ t', insert t key value hint = some t' ∧
      Rep t' (Function.update items (hash key) (l ++ [{ x with val := value }])) := by
  rcases exists_strcpy hlen with ⟨newKey, hcopy, -⟩
  have hbucket := h (hash key)
  rw [hitems] at hbucket
  have hkeys : key ∉ l.map Item.key := by
    have hnot := (nodup_map_middle.1 hbucket.keys).1
    rwa [hxkey, append_nil] at hnot
  have hfresh : ∀ j, ∀ y ∈ items j, y.addr ≠ t.heap.freshAddr hint := fun j y hy =>
    (h j).addr_ne_freshAddr hy hint
  have halloc := hbucket.alloc hint ⟨newKey, value, none⟩
  rcases update_eq halloc value (alloc_self ..) (hitems ▸ hfresh (hash key)) with
    ⟨heap, hupdate, hbucket', -, hsame⟩
  rcases node_eq halloc with ⟨node, hcell, hkey, -, -⟩
  refine ⟨{ t with heap }, ?_, h.update_items hbucket' fun j hj y hy => ?_⟩
  · rw [insert_eq h hitems hcopy value hint hkeys, insertLast, hcell, bind_eq_bind, bind_some,
      if_pos (hkey.trans hxkey), hupdate, bind_some]
  · have hyx : y.addr ≠ x.addr := (h j).addr_ne (h (hash key)) hj hy (by simp [hitems])
    exact Memory.ofHeap_congr ((hsame _ hyx (hfresh j y hy)).trans (alloc_of_ne (hfresh j y hy)))

theorem insert_push (h : Rep t items) (hitems : items (hash key) = l ++ [x])
    (hkeys : key ∉ (items (hash key)).map Item.key) (hlen : key.bytes.length < KEY_SIZE)
    (value : Int) (hint : Nat) :
    ∃ t', insert t key value hint = some t' ∧ Rep t' (Function.update items (hash key)
      (items (hash key) ++ [⟨t.heap.freshAddr hint, key, value⟩])) := by
  rcases exists_strcpy hlen with ⟨newKey, hcopy, hstr⟩
  have hbucket := h (hash key)
  rw [hitems] at hbucket hkeys
  have hnot : key ∉ l.map Item.key ∧ x.key ≠ key := by
    rw [map_append, mem_append, not_or, map_singleton, mem_singleton] at hkeys
    exact ⟨hkeys.1, Ne.symm hkeys.2⟩
  have hfresh : ∀ j, ∀ y ∈ items j, y.addr ≠ t.heap.freshAddr hint := fun j y hy =>
    (h j).addr_ne_freshAddr hy hint
  have hxmem : x ∈ items (hash key) := by simp [hitems]
  rcases node_eq (hbucket.alloc hint ⟨newKey, value, none⟩) with ⟨node, hcell, hkey, -, -⟩
  let heap := (t.heap.alloc hint ⟨newKey, value, none⟩).adjust x.addr fun n =>
    { n with next := some (t.heap.freshAddr hint) }
  have hnew : heap.cell (t.heap.freshAddr hint) = some ⟨newKey, value, none⟩ :=
    (adjust_of_ne (Ne.symm (hfresh _ x hxmem))).trans (alloc_self ..)
  have hsame : ∀ a, a ≠ x.addr → a ≠ t.heap.freshAddr hint → heap.cell a = t.heap.cell a :=
    fun a hx hn =>
    (adjust_of_ne hx).trans (alloc_of_ne hn)
  have hlast : ((l ++ [x]).map Item.addr).getLast? = some x.addr := by
    rw [map_append, map_singleton, getLast?_concat]
  have hfirst : t.hashTable (hash key) =
    (t.hashTable (hash key)).or (some (t.heap.freshAddr hint)) := by
    rw [hbucket.start]
    simp
  refine ⟨{ t with heap }, ?_, h.update_items ?_ fun j hj y hy => ?_⟩
  · rw [insert_eq h hitems hcopy value hint hnot.1, insertLast, hcell, bind_eq_bind, bind_some,
      if_neg (by rw [hkey]; exact hnot.2), modify_eq hcell, bind_some]
  · rw [hfirst, hitems]
    refine hbucket.push (x := ⟨t.heap.freshAddr hint, key, value⟩) rfl hkeys ⟨?_,
      ?_⟩ (fun c hc => ?_)
      (fun a ha hax => ?_) fun y hy => ?_
    · simp [mem, Memory.ofHeap, hnew]
    · simp [mem, Memory.ofHeap, hnew, hstr]
    · rw [hlast, some.injEq] at hc
      simp [mem, Memory.ofHeap, ← hc, heap, adjust_self hcell]
    · rw [hlast] at hax
      rcases mem_map.1 ha with ⟨y, hy, rfl⟩
      exact (Memory.ofHeap_congr
        (hsame _ (fun heq => hax (by rw [heq])) (hfresh _ y (hitems ▸ hy)))).1
    · simp only [mem, Memory.ofHeap]
      rw [map_adjust (by simp), alloc_of_ne (hfresh _ y (hitems ▸ hy))]
  · exact Memory.ofHeap_congr (hsame _ ((h j).addr_ne (h (hash key)) hj hy hxmem) (hfresh j y hy))

theorem insertLoop_match (h : Bucket heap first i (before ++ x :: (l ++ [y]))) (hxkey : x.key = key)
    (value : Int) {node : Node} (hnew : heap.cell newNode = some node)
    (hne : ∀ z ∈ before ++ x :: (l ++ [y]), z.addr ≠ newNode)
    (hfuel : (before ++ x :: (l ++ [y])).length ≤ fuel) :
    ∃ heap', insertLoop key value newNode fuel heap
      ((before ++ x :: (l ++ [y])).map Item.addr).head? = some (heap', y.addr) ∧
          Bucket heap' first i (before ++ { x with val := value } :: (l ++ [y])) ∧
      heap'.cell newNode = none := by
  -- no other node has the key
  have hothers : key ∉ before.map Item.key ∧ key ∉ l.map Item.key := by
    have hnot := (nodup_map_middle.1 h.keys).1
    simp only [hxkey, map_append, mem_append, not_or] at hnot
    exact ⟨hnot.1, hnot.2.1⟩
  rcases update_eq h value hnew hne with ⟨heap', hupdate, hbucket, hgone, -⟩
  rcases node_eq h with ⟨xnode, hcell, hstr, -, hnext⟩
  rcases node_eq hbucket with ⟨xnode', hcell', -, -, hnext'⟩
  have hbehind : Bucket heap' first i ((before ++ [{ x with val := value }]) ++ l ++ [y]) := by
    simpa using hbucket
  have hmore : ¬xnode.next = none := by
    rw [hnext]
    simp
  simp only [length_append, length_cons] at hfuel
  obtain ⟨fuel, rfl⟩ : ∃ n, fuel = before.length + (n + 1) := ⟨fuel - before.length - 1, by omega⟩
  have hwhole : Bucket heap first i ([] ++ before ++ x :: (l ++ [y])) := h
  refine ⟨heap', ?_, hbucket, hgone⟩
  rw [insertLoop_skip hwhole hothers.1, insertLoop, hcell]
  simp only [bind_eq_bind, bind_some, if_neg hmore, if_pos (hstr.trans hxkey), hupdate,
    hcell', hnext']
  exact insertLoop_last hbehind hothers.2 value newNode (by omega)

/-- A node in front of the last one has the key: the chain leads to the node that was freed. -/
theorem insert_dangles (h : Rep t items) (hitems : items (hash key) = before ++ x :: (l ++ [y]))
    (hxkey : x.key = key) (hlen : key.bytes.length < KEY_SIZE) (value : Int) (hint : Nat) :
    ∃ t', insert t key value hint = some t' ∧ t'.hashTable = t.hashTable ∧
      Linked (nextOf t'.heap) ((items (hash key)).map Item.addr) (some (t.heap.freshAddr hint)) ∧
      nextOf t'.heap (t.heap.freshAddr hint) = none := by
  rcases exists_strcpy hlen with ⟨newKey, hcopy, -⟩
  have hfresh : ∀ z ∈ items (hash key), z.addr ≠ t.heap.freshAddr hint := fun z hz =>
    (h _).addr_ne_freshAddr hz hint
  have halloc := (h (hash key)).alloc hint ⟨newKey, value, none⟩
  have hfuel := halloc.length_le
  have hfull : ¬t.hashTable (hash key) = none := by
    rw [(h _).start, hitems]
    simp
  rw [hitems] at halloc hfresh hfuel
  rcases insertLoop_match halloc hxkey value (alloc_self ..) hfresh (Nat.le_succ_of_le hfuel) with
    ⟨heap, hloop, hbucket, hgone⟩
  rw [← hitems, ← (h _).start] at hloop
  have hbehind : Bucket heap (t.hashTable (hash key)) (hash key)
      ((before ++ { x with val := value } :: l) ++ [y]) := by simpa using hbucket
  rcases node_eq hbehind with ⟨ynode, hcell, hstr, -, -⟩
  have hykey : ¬ynode.key.str = key := by
    have hnot := (nodup_map_middle.1 halloc.keys).1
    simp only [hxkey, map_append, mem_append, not_or, map_singleton, mem_singleton] at hnot
    rw [hstr]
    exact Ne.symm hnot.2.2
  have haddr : (items (hash key)).map Item.addr =
      ((before ++ { x with val := value } :: l) ++ [y]).map Item.addr := by simp [hitems]
  have hlast : (((before ++ { x with val := value } :: l) ++ [y]).map Item.addr).getLast? =
    some y.addr := by
    rw [map_append, map_singleton, getLast?_concat]
  refine ⟨⟨t.hashTable, heap.adjust y.addr fun n =>
    { n with next := some (t.heap.freshAddr hint) }⟩, ?_, rfl,
    ?_, ?_⟩
  · simp [insert, hcopy, if_neg hfull, hloop, insertLast, hcell, if_neg hykey, modify_eq hcell]
  · rw [haddr]
    refine hbehind.linked.relink hbehind.nodup (fun c hc => ?_) fun a _ ha => ?_
    · rw [hlast, some.injEq] at hc
      simp [nextOf, ← hc, adjust_self hcell]
    · rw [hlast] at ha
      exact (Memory.ofHeap_congr (adjust_of_ne fun heq => ha (by rw [heq]))).1
  · have hne : t.heap.freshAddr hint ≠ y.addr := Ne.symm (hfresh y (by simp))
    rw [nextOf, adjust_of_ne hne, hgone]
    rfl

end SystemsLab.ChainedTable
