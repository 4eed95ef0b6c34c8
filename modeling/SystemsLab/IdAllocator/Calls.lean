import SystemsLab.CLib.CArray
import SystemsLab.Data.CallSequence

/-!
# The allocator of `leetcode-memory-allocator.c`

`memory[i]` is the id that owns cell `i`, or zero.  For each id the positions of its cells are kept
a second time, in an array that grows with `realloc` and has its own counter.  All accesses are
checked.  `allocatorAllocate` returns a start or `-1`.
-/

namespace SystemsLab.IdAllocator

open CallSequence List CArray

def ID_SLOTS : Nat := 1001

/-- An allocator with `n` cells; a position array is the list of its elements, `NULL` being empty.
-/
structure Allocator (n : Nat) where
  memory : CArray Nat n
  mIDPositions : CArray (List Nat) ID_SLOTS
  mIDCounts : CArray Nat ID_SLOTS

def allocatorCreate (n : Nat) : Allocator n := ⟨CArray.fill 0, CArray.fill [], CArray.fill 0⟩

variable {n : Nat}

/-- `realloc` to `k` elements; new ones are not initialised. -/
def realloc (positions : List Nat) (k : Nat) : List Nat :=
  positions.take k ++ List.replicate (k - positions.length) 0

/-- The scan of `allocatorAllocate` with `r` cells left: the start of the block, if one is found. -/
def findBlock (memory : CArray Nat n) (size : Nat) : Nat → Nat → Nat → Option (Option Nat)
  | 0, _, _ => some none
  | r + 1, iterator, count => do
      let owner ← memory.get iterator
      let count := if owner = 0 then count + 1 else 0
      if count = size then some (some (iterator + 1 - size))
      else findBlock memory size r (iterator + 1) count

/-- `mIDPositions[mID][mIDCounts[mID]++] = cell;` -/
def appendPosition (obj : Allocator n) (mID cell : Nat) : Option (Allocator n) := do
  let positions ← obj.mIDPositions.get mID
  let count ← obj.mIDCounts.get mID
  if count < positions.length then do
    let mIDPositions ← obj.mIDPositions.set mID (positions.set count cell)
    let mIDCounts ← obj.mIDCounts.set mID (count + 1)
    some { obj with mIDPositions := mIDPositions, mIDCounts := mIDCounts }
  else none

def markCells (mID : Nat) : Nat → Nat → Allocator n → Option (Allocator n)
  | 0, _, obj => some obj
  | k + 1, cell, obj => do
      let memory ← obj.memory.set cell mID
      let obj ← appendPosition { obj with memory := memory } mID cell
      markCells mID k (cell + 1) obj

def allocatorAllocate (obj : Allocator n) (size mID : Nat) : Option (Allocator n × Int) := do
  let found ← findBlock obj.memory size n 0 0
  match found with
  | none => some (obj, -1)
  | some start => do
      let positions ← obj.mIDPositions.get mID
      let count ← obj.mIDCounts.get mID
      let mIDPositions ← obj.mIDPositions.set mID (realloc positions (count + size))
      let obj ← markCells mID size start { obj with mIDPositions := mIDPositions }
      some (obj, (start : Int))

/-- The loop of `allocatorFreeMemory` with `r` positions left. -/
def clearCells (positions : List Nat) : Nat → Nat → CArray Nat n → Option (CArray Nat n)
  | 0, _, memory => some memory
  | r + 1, iterator, memory => do
      let cell ← positions[iterator]?
      let memory ← memory.set cell 0
      clearCells positions r (iterator + 1) memory

def allocatorFreeMemory (obj : Allocator n) (mID : Nat) : Option (Allocator n × Int) := do
  let freed ← obj.mIDCounts.get mID
  let positions ← obj.mIDPositions.get mID
  let memory ← clearCells positions freed 0 obj.memory
  let mIDPositions ← obj.mIDPositions.set mID []
  let mIDCounts ← obj.mIDCounts.set mID 0
  some (⟨memory, mIDPositions, mIDCounts⟩, (freed : Int))

inductive Call where
  | allocate (size mID : Nat)
  | freeMemory (mID : Nat)

def exec (obj : Allocator n) : Call → Option (Allocator n × Int)
  | .allocate size mID => allocatorAllocate obj size mID
  | .freeMemory mID => allocatorFreeMemory obj mID

def call (obj : Allocator n) (c : Call) : Option (Allocator n) := (exec obj c).map Prod.fst

def ValidId (mID : Nat) : Prop := 1 ≤ mID ∧ mID ≤ 1000

instance (mID : Nat) : Decidable (ValidId mID) := inferInstanceAs (Decidable (_ ∧ _))

def Call.InRange : Call → Prop
  | .allocate size mID => 1 ≤ size ∧ ValidId mID
  | .freeMemory mID => ValidId mID

instance : (c : Call) → Decidable c.InRange
  | .allocate size mID => inferInstanceAs (Decidable (1 ≤ size ∧ ValidId mID))
  | .freeMemory mID => inferInstanceAs (Decidable (ValidId mID))

/-! ## The specification -/

def IsFree (memory : CArray Nat n) (start size : Nat) : Prop :=
  ∀ i, start ≤ i → i < start + size → memory.get i = some 0

def ownedCells (memory : CArray Nat n) (mID : Nat) : List Nat :=
  (List.range n).filter fun i => memory.get i = some mID

/-- What a call may return and do. -/
def Meets (obj obj' : Allocator n) : Call → Int → Prop
  | .allocate size mID, result =>
    (∃ start : Nat, result = start ∧ IsFree obj.memory start size ∧
      (∀ other, IsFree obj.memory other size → start ≤ other) ∧
      ∀ i, obj'.memory.get i = if start ≤ i ∧
        i < start + size then some mID else obj.memory.get i) ∨
    result = -1 ∧ obj' = obj ∧ ∀ start, ¬IsFree obj.memory start size
  | .freeMemory mID, result =>
    result = (ownedCells obj.memory mID).length ∧
      ∀ i, obj'.memory.get i = if obj.memory.get i = some mID then some 0 else obj.memory.get i

/-- The position lists are the cells of each id. -/
def PositionsMatch (obj : Allocator n) : Prop :=
  ∀ mID, ValidId mID → ∃ positions, obj.mIDPositions.get mID = some positions ∧
    obj.mIDCounts.get mID = some positions.length ∧ positions.Nodup ∧
    ∀ i, i ∈ positions ↔ obj.memory.get i = some mID

/-! ## The scan -/

variable {memory : CArray Nat n} {obj : Allocator n} {size mID : Nat} {i : Nat}
  {positions rest : List Nat}

/-- Where the scan stands before cell `i`: the last `count` cells are free, no longer run of free
cells ends here, and no block of free cells ends here or earlier. -/
structure Scanned (memory : CArray Nat n) (size i count : Nat) : Prop where
  count_le : count ≤ i
  free : IsFree memory (i - count) count
  maximal : ∀ start len, start + len = i → IsFree memory start len → len ≤ count
  short : count < size
  none_before : ∀ start, start + size ≤ i → ¬IsFree memory start size

namespace Scanned

variable {i count : Nat}

theorem start (hsize : 1 ≤ size) : Scanned memory size 0 0 where
  count_le := le_refl _
  free j hj hj' := by omega
  maximal := by omega
  short := hsize
  none_before := by omega

variable (h : Scanned memory size i count)

include h

/-- One cell further, no block is complete while the run in front of it is too short. -/
theorem next {count' : Nat} (hle : count' ≤ i + 1) (hfree : IsFree memory (i + 1 - count') count')
    (hmax : ∀ start len, start + len = i + 1 → IsFree memory start len → len ≤ count')
    (hshort : count' < size) : Scanned memory size (i + 1) count' := by
  refine ⟨hle, hfree, hmax, hshort, fun start hstart hblock => ?_⟩
  by_cases hlast : start + size ≤ i
  · exact h.none_before start hlast hblock
  · have := hmax start size (by omega) hblock
    omega

theorem owned (hcell : memory.get i ≠ some 0) : Scanned memory size (i + 1) 0 := by
  refine h.next (Nat.zero_le _) (fun j hj hj' => by omega) (fun start len hlen hblock => ?_) ?_
  · by_contra hpos
    exact hcell (hblock i (by omega) (by omega))
  · have := h.short
    omega

theorem run (hcell : memory.get i = some 0) : IsFree memory (i + 1 - (count + 1)) (count + 1) := by
  intro j hj hj'
  have hle := h.count_le
  rcases lt_or_ge j i with hlt | hge
  · exact h.free j (by omega) (by omega)
  · obtain rfl : j = i := by omega
    exact hcell

theorem longer (hcell : memory.get i = some 0)
    (hsize : count + 1 ≠ size) : Scanned memory size (i + 1) (count + 1) := by
  refine h.next (Nat.succ_le_succ h.count_le) (h.run hcell) (fun start len hlen hblock => ?_) ?_
  · rcases len with - | len
    · omega
    · have := h.maximal start len (by omega) fun j hj hj' => hblock j hj (by omega)
      omega
  · have := h.short
    omega

theorem found (hcell : memory.get i = some 0) (hsize : count + 1 = size) :
    IsFree memory (i + 1 - size) size ∧ ∀ other, IsFree memory other size →
      i + 1 - size ≤ other := by
  subst hsize
  refine ⟨h.run hcell, fun other hfree => ?_⟩
  by_contra hlt
  exact h.none_before other (by omega) hfree

end Scanned

theorem findBlock_spec {r count : Nat} (h : Scanned memory size i count) (hr : i + r = n) :
    (∃ start, findBlock memory size r i count = some (some start) ∧ IsFree memory start size ∧
        ∀ other, IsFree memory other size → start ≤ other) ∨
      findBlock memory size r i count = some none ∧ ∀ start, ¬IsFree memory start size := by
  have hshort := h.short
  induction r generalizing i count with
  | zero =>
    refine .inr ⟨rfl, fun start hfree => h.none_before start ?_ hfree⟩
    -- the last cell of a block is a cell
    have hlast := get_lt (hfree (start + size - 1) (by omega) (by omega))
    omega
  | succ r ih =>
    rcases exists_get memory (i := i) (by omega) with ⟨owner, howner⟩
    rcases eq_or_ne owner 0 with rfl | hzero
    · by_cases hsize : count + 1 = size
      · exact .inl ⟨i + 1 - size, by simp [findBlock, howner, hsize], h.found howner hsize⟩
      · have hnext := h.longer howner hsize
        simpa [findBlock, howner, hsize] using ih hnext (by omega) hnext.short
    · have hnext := h.owned (by simpa [howner] using hzero)
      simpa [findBlock, howner, hzero, show ¬0 = size by omega]
        using ih hnext (by omega) hnext.short

/-! ## Marking cells -/

/-- One position behind the others, and nothing else but its count changes. -/
theorem exists_appendPosition (obj : Allocator n) (cell : Nat) {g : Nat}
    (hpos : obj.mIDPositions.get mID = some (positions ++ g :: rest))
    (hcount : obj.mIDCounts.get mID = some positions.length) :
    ∃ obj', appendPosition obj mID cell = some obj' ∧ obj'.memory = obj.memory ∧
      (∀ id, obj'.mIDPositions.get id =
        if id = mID then some (positions ++ cell :: rest) else obj.mIDPositions.get id) ∧
      ∀ id, obj'.mIDCounts.get id =
        if id = mID then some (positions.length + 1) else obj.mIDCounts.get id := by
  rcases exists_set obj.mIDPositions (get_lt hpos) (positions ++ cell :: rest) with ⟨p, hp, hget⟩
  rcases exists_set obj.mIDCounts (get_lt hcount) (positions.length + 1) with ⟨c, hc, hget'⟩
  exact ⟨⟨obj.memory, p, c⟩, by simp [appendPosition, hpos, hcount, hp, hc], rfl, hget, hget'⟩

theorem markCells_spec (obj : Allocator n) {k cell : Nat} {garbage : List Nat}
    (hcell : cell + k ≤ n)
    (hpos : obj.mIDPositions.get mID = some (positions ++ garbage)) (hlen : garbage.length = k)
    (hcount : obj.mIDCounts.get mID = some positions.length) :
    ∃ obj', markCells mID k cell obj = some obj' ∧
      (∀ i, obj'.memory.get i = if cell ≤ i ∧ i < cell + k then some mID else obj.memory.get i) ∧
      (∀ id, obj'.mIDPositions.get id =
        if id = mID then some (positions ++ range' cell k) else obj.mIDPositions.get id) ∧
      ∀ id, obj'.mIDCounts.get id =
        if id = mID then some (positions.length + k) else obj.mIDCounts.get id := by
  induction k generalizing cell obj positions garbage with
  | zero =>
    exact ⟨obj, rfl, by grind, by grind, by grind⟩
  | succ k ih =>
    obtain ⟨g, garbage, rfl⟩ := exists_cons_of_length_eq_add_one hlen
    rcases exists_set obj.memory (i := cell) (by omega) mID with ⟨memory', hmem, hget⟩
    rcases exists_appendPosition ⟨memory', obj.mIDPositions, obj.mIDCounts⟩ cell hpos hcount with
      ⟨obj1, h1, hmem1, hpos1, hcount1⟩
    have hpos1' : obj1.mIDPositions.get mID = some ((positions ++ [cell]) ++ garbage) := by
      simp [hpos1]
    rcases ih obj1 (by omega : cell + 1 + k ≤ n) hpos1' (Nat.succ.inj hlen) (by simp [hcount1]) with
      ⟨obj2, h2, hmem2, hpos2, hcount2⟩
    refine ⟨obj2, by simp [markCells, hmem, h1, h2], fun i => ?_, fun id => ?_, fun id => ?_⟩
    · grind
    · rw [hpos2, hpos1]
      grind [range'_succ]
    · grind

/-! ## Clearing cells -/

theorem clearCells_spec (done : List Nat) (hrest : ∀ i ∈ rest, i < n) (memory : CArray Nat n) :
    ∃ memory', clearCells (done ++ rest) rest.length done.length memory = some memory' ∧
      ∀ i, memory'.get i = if i ∈ rest then some 0 else memory.get i := by
  induction rest generalizing done memory with
  | nil => exact ⟨memory, rfl, by simp⟩
  | cons cell rest ih =>
    rcases exists_set memory (hrest cell mem_cons_self) 0 with ⟨memory1, h1, hget1⟩
    rcases ih (done ++ [cell]) (fun i hi => hrest i (mem_cons_of_mem _ hi)) memory1
      with ⟨memory2, h2, hget2⟩
    refine ⟨memory2, ?_, fun i => ?_⟩
    · simpa [clearCells, h1] using h2
    · grind

/-! ## The calls -/

theorem positionsMatch_create (n : Nat) : PositionsMatch (allocatorCreate n) := by
  intro mID hid
  have hlt : mID < ID_SLOTS := Nat.lt_succ_of_le hid.2
  refine ⟨[], dif_pos hlt, dif_pos hlt, nodup_nil, fun i => ⟨nofun, fun h => ?_⟩⟩
  -- no cell has the value `mID`
  have hzero : (0 : Nat) = mID := by
    simpa [allocatorCreate, CArray.get, CArray.fill, get_lt h] using h
  have := hid.1
  omega

theorem realloc_append (positions : List Nat) (k : Nat) :
    realloc positions (positions.length + k) = positions ++ replicate k 0 := by
  simp [realloc]

theorem PositionsMatch.change {obj' : Allocator n} (h : PositionsMatch obj) (mID : Nat)
    (positions : List Nat) (hpos : ∀ id, obj'.mIDPositions.get id =
      if id = mID then some positions else obj.mIDPositions.get id)
    (hcount : ∀ id, obj'.mIDCounts.get id =
      if id = mID then some positions.length else obj.mIDCounts.get id)
    (hnodup : positions.Nodup) (hself : ∀ i, i ∈ positions ↔ obj'.memory.get i = some mID)
    (hother : ∀ id, 1 ≤ id → id ≠ mID → ∀ i,
      obj'.memory.get i = some id ↔ obj.memory.get i = some id) : PositionsMatch obj' := by
  intro id hid
  rcases eq_or_ne id mID with rfl | hid'
  · exact ⟨positions, by simp [hpos], by simp [hcount], hnodup, hself⟩
  · rcases h id hid with ⟨others, hopos, hocount, honodup, homem⟩
    refine ⟨others, by simp [hpos, hid', hopos], by simp [hcount, hid', hocount],
      honodup, fun i => ?_⟩
    rw [homem, hother id hid.1 hid']

theorem exec_allocate (h : PositionsMatch obj) (hsize : 1 ≤ size) (hid : ValidId mID) :
    ∃ obj' result, allocatorAllocate obj size mID = some (obj', result) ∧
      Meets obj obj' (.allocate size mID) result ∧ PositionsMatch obj' := by
  have hscan : Scanned obj.memory size 0 0 := Scanned.start hsize
  rcases findBlock_spec hscan (zero_add n) with ⟨start, hfound, hfree, hleast⟩ | ⟨hnone, hall⟩
  · rcases h mID hid with ⟨positions, hpos, hcount, hnodup, hmem⟩
    have hroom : start + size ≤ n := by
      have := get_lt (hfree (start + size - 1) (by omega) (by omega))
      omega
    rcases exists_set obj.mIDPositions (get_lt hpos) (positions ++ replicate size 0) with
      ⟨grown, hgrown, hget⟩
    rcases markCells_spec ⟨obj.memory, grown, obj.mIDCounts⟩ hroom
      ((hget mID).trans (if_pos rfl)) (length_replicate ..) hcount with
      ⟨obj', hmark, hmem', hpos', hcount'⟩
    refine ⟨obj', start, ?_, .inl ⟨start, rfl, hfree, hleast, hmem'⟩, ?_⟩
    · simp [allocatorAllocate, hfound, hpos, hcount, realloc_append, hgrown, hmark]
    · refine h.change mID (positions ++ range' start size) ?_ ?_ ?_ ?_ ?_
      · grind
      · grind
      · -- the new cells were free, so they are not among the old positions
        refine nodup_append.2 ⟨hnodup, nodup_range', fun a ha b hb => ?_⟩
        rintro rfl
        rcases mem_range'_1.1 hb with ⟨hlo, hhi⟩
        have hzero := (hfree a hlo hhi).symm.trans ((hmem a).1 ha)
        have := hid.1
        grind
      · intro i
        grind
      · grind [IsFree]
  · exact ⟨obj, -1, by simp [allocatorAllocate, hnone], .inr ⟨rfl, rfl, hall⟩, h⟩

theorem length_ownedCells (hnodup : positions.Nodup)
    (hmem : ∀ i, i ∈ positions ↔ memory.get i = some mID) :
    (ownedCells memory mID).length = positions.length := by
  refine Perm.length_eq ((perm_ext_iff_of_nodup (nodup_range.filter _) hnodup).2 ?_)
  intro i
  simpa [hmem] using get_lt

theorem exec_freeMemory (h : PositionsMatch obj) (hid : ValidId mID) :
    ∃ obj' result, allocatorFreeMemory obj mID = some (obj', result) ∧
      Meets obj obj' (.freeMemory mID) result ∧ PositionsMatch obj' := by
  rcases h mID hid with ⟨positions, hpos, hcount, hnodup, hmem⟩
  rcases clearCells_spec [] (fun i hi => get_lt ((hmem i).1 hi)) obj.memory
    with ⟨memory', hclear, hget⟩
  rcases exists_set obj.mIDPositions (get_lt hpos) [] with ⟨p, hp, hgetp⟩
  rcases exists_set obj.mIDCounts (get_lt hcount) 0 with ⟨c, hc, hgetc⟩
  have hcells : ∀ i, memory'.get i =
    if obj.memory.get i = some mID then some 0 else obj.memory.get i := by
    simpa only [hmem] using hget
  refine ⟨⟨memory', p, c⟩, positions.length, ?_, ⟨?_, hcells⟩, ?_⟩
  · have hclear' : clearCells positions positions.length 0 obj.memory = some memory' := hclear
    simp [allocatorFreeMemory, hcount, hpos, hclear', hp, hc]
  · rw [length_ownedCells hnodup hmem]
  · refine h.change mID [] hgetp hgetc nodup_nil (fun i => ?_) fun id hpos hne i => ?_
    · -- every cell of the id was cleared
      have := hid.1
      grind
    · grind

theorem exec_meets (h : PositionsMatch obj) {c : Call} (hc : c.InRange) :
    ∃ obj' result, exec obj c = some (obj', result) ∧ Meets obj obj' c result ∧
      PositionsMatch obj' := by
  cases c with
  | allocate size mID => exact exec_allocate h hc.1 hc.2
  | freeMemory mID => exact exec_freeMemory h hc

/-- After any calls the position lists are the cells of each id, and every further call does what
the specification says. -/
theorem id_allocator_meets_specification (n : Nat) (calls : List Call)
    (hcalls : ∀ c ∈ calls, c.InRange) :
    ∃ obj, runCalls call (allocatorCreate n) calls = some obj ∧ PositionsMatch obj ∧
      ∀ c : Call, c.InRange →
        ∃ obj' result, exec obj c = some (obj', result) ∧ Meets obj obj' c result := by
  have hstep : ∀ (obj : Allocator n) (made : List Call), ∀ c ∈ calls, PositionsMatch obj →
      (fun _ _ => true : Allocator n → Call → Bool) obj c →
      ∃ obj', call obj c = some obj' ∧ PositionsMatch obj' := by
    intro obj _ c hmem hobj _
    rcases exec_meets hobj (hcalls c hmem) with ⟨obj', result, hexec, -, hobj'⟩
    exact ⟨obj', by rw [call, hexec]; rfl, hobj'⟩
  rcases runCalls_guarded (R := fun obj _ => PositionsMatch obj) hstep (positionsMatch_create n)
    (guarded_true ..) with ⟨obj, hrun, hobj⟩
  refine ⟨obj, hrun, hobj, fun c hc => ?_⟩
  rcases exec_meets hobj hc with ⟨obj', result, hexec, hmeets, -⟩
  exact ⟨obj', result, hexec, hmeets⟩

/-- Two blocks of the id `1` with one of `2` between them; both blocks are freed and a longer one
takes the place of the first. -/
def demoCalls : List Call :=
  [.allocate 1 1, .allocate 1 2, .allocate 2 1, .freeMemory 1, .allocate 3 3]

theorem id_allocator_meets_specification_demo :
    ∃ obj, runCalls call (allocatorCreate 10) demoCalls = some obj ∧ PositionsMatch obj := by
  rcases id_allocator_meets_specification 10 demoCalls (by decide) with ⟨obj, hrun, hobj, -⟩
  exact ⟨obj, hrun, hobj⟩

end SystemsLab.IdAllocator
