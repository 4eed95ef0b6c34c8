import SystemsLab.Data.CallSequence
import SystemsLab.Data.Probing

/-!
# The table of `insert_search_delete_linearProbing.c`

Keys and values are `int`.  `EMPTY` and `DELETED` mark the `key` of an entry, but `insert` compares
`DELETED` with the `value`.  The index of a negative key is outside the array; a loop that gets
there fails.  The messages are left out.

`insert` never looks for its key, so a key that is inserted again gets a second entry behind the
first one, which `search` still finds.  And it takes any entry whose *value* is `DELETED`, so that
an entry with the value -2 is lost to the next key that comes by (`value_minus_two_is_lost`).

An entry is free for `insert` if its key is `EMPTY` or its value is -2, and no deletion changes
that. `freeSlots` are the entries that an insertion can take, and `filled` the insertions so far
with another value than -2, each of which used up an entry.
-/

namespace SystemsLab.IntTable

open CallSequence Probing Function Option

def TABLE_SIZE : Nat := 10

instance neZeroTableSize : NeZero TABLE_SIZE := ⟨by decide⟩

def EMPTY : Int := -1

def DELETED : Int := -2

structure Entry where
  key : Int
  value : Int
  deriving DecidableEq

abbrev Table := Fin TABLE_SIZE → Entry

def hashFunction (key : Int) : Int := key.tmod TABLE_SIZE

def initTable : Table := fun _ => ⟨EMPTY, 0⟩

/-- `newIndex = (index + i) % TABLE_SIZE`, as an index of the array. -/
def newIndex (index : Int) (i : Nat) : Option (Fin TABLE_SIZE) :=
  let j := (index + i).tmod TABLE_SIZE
  if h : 0 ≤ j ∧ j.toNat < TABLE_SIZE then some ⟨j.toNat, h.2⟩ else none

/-- The loop that `insert`, `search` and `delete` have in common, over the values `is` of `i`: the
first entry that ends it, if there is one. -/
def scan (table : Table) (ends : Entry → Bool) (index : Int) :
    List Nat → Option (Option (Fin TABLE_SIZE))
  | [] => some none
  | i :: is => do
      let j ← newIndex index i
      if ends (table j) then some (some j) else scan table ends index is

/-- The slot that `insert` takes; without one it reports that the table is full. -/
def insertSlot (table : Table) (key : Int) : Option (Option (Fin TABLE_SIZE)) :=
  scan table (fun e => e.key = EMPTY ∨ e.value = DELETED) (hashFunction key) (List.range TABLE_SIZE)

def insert (table : Table) (key value : Int) : Option Table := do
  match ← insertSlot table key with
  | some j => some (Function.update table j ⟨key, value⟩)
  | none => some table

/-- The slot at which `search` and `delete` stop. -/
def searchSlot (table : Table) (key : Int) : Option (Option (Fin TABLE_SIZE)) :=
  scan table (fun e => e.key = EMPTY ∨ e.key = key) (hashFunction key) (List.range TABLE_SIZE)

def search (table : Table) (key : Int) : Option Int := do
  match ← searchSlot table key with
  | some j => if (table j).key = -1 then some (-1) else some (table j).value
  | none => some (-1)

def delete (table : Table) (key : Int) : Option Table := do
  match ← searchSlot table key with
  | some j =>
    if (table j).key = EMPTY then some table
    else some (Function.update table j { table j with key := DELETED })
  | none => some table

def call (table : Table) : MapCall Int Int → Option Table
  | .insert key value => insert table key value
  | .delete key => delete table key

def run (calls : List (MapCall Int Int)) : Option Table := runCalls call initTable calls

/-! ## The loop for a key that is not negative -/

def home (key : Int) : Fin TABLE_SIZE := Fin.ofNat TABLE_SIZE key.toNat

variable {table : Table} {key : Int} {ends : Entry → Bool}

theorem newIndex_eq (hkey : 0 ≤ key) (i : Nat) :
    newIndex (hashFunction key) i = some (slotAt (home key) i) := by
  obtain ⟨k, rfl⟩ := Int.eq_ofNat_of_zero_le hkey
  have hindex : (hashFunction k + i).tmod TABLE_SIZE =
    ((k % TABLE_SIZE + i) % TABLE_SIZE : Nat) := by
    rfl
  have hlt : (k % TABLE_SIZE + i) % TABLE_SIZE < TABLE_SIZE := Nat.mod_lt _ (by decide)
  simp only [newIndex, hindex, Int.toNat_natCast]
  rw [dif_pos ⟨Int.natCast_nonneg _, hlt⟩, some.injEq]
  apply Fin.ext
  rw [val_slotAt, home, Fin.val_ofNat, Int.toNat_natCast]

theorem scan_range' (hkey : 0 ≤ key) (i steps : Nat) :
    scan table ends (hashFunction key) (List.range' i steps) =
      some (probe (fun j => ends (table j)) steps (slotAt (home key) i)) := by
  induction steps generalizing i with
  | zero => rfl
  | succ steps ih =>
    have hnext : slotAt (home key) i + 1 = slotAt (home key) (i + 1) := by
      apply Fin.ext
      rw [Fin.val_add, val_slotAt, val_slotAt, Fin.val_one', Nat.mod_add_mod,
        Nat.add_mod_mod, add_assoc]
    rw [List.range'_succ, scan, newIndex_eq hkey, probe, hnext, bind_eq_bind, bind_some, ih]
    split
    · rfl
    · rfl

theorem scan_eq (hkey : 0 ≤ key) : scan table ends (hashFunction key) (List.range TABLE_SIZE) =
    some (probe (fun j => ends (table j)) TABLE_SIZE (home key)) := by
  rw [List.range_eq_range', scan_range' hkey, slotAt_zero]

/-! ## The table as a map -/

/-- What a search for a key that is not negative sees of an entry. -/
def cell (e : Entry) : Cell Int :=
  if e.key = EMPTY then .empty else if e.key < 0 then .deleted else .key e.key

def cells (table : Table) (i : Fin TABLE_SIZE) : Cell Int := cell (table i)

def values (table : Table) (i : Fin TABLE_SIZE) : Int := (table i).value

/-- The table represents the map `m`, with one entry for each key. -/
structure Rep (table : Table) (m : Int → Option Int) : Prop where
  represents : Represents home (cells table) (values table) m
  distinct : Distinct (cells table)

variable {m : Int → Option Int} {value : Int} {i j p : Fin TABLE_SIZE} {e : Entry}

theorem cell_eq_empty : cell e = .empty ↔ e.key = EMPTY := by
  unfold cell
  split_ifs with hempty hneg
  · simp [hempty]
  · simp [hempty]
  · simp [hempty]

theorem cell_eq_key : cell e = .key key ↔ 0 ≤ key ∧ e.key = key := by
  unfold cell
  rw [EMPTY]
  split_ifs with hempty hneg
  · exact ⟨nofun, fun h => by omega⟩
  · exact ⟨nofun, fun h => by omega⟩
  · rw [Cell.key.injEq]
    omega

theorem cells_update : cells (update table p e) = update (cells table) p (cell e) :=
  comp_update cell table p e

theorem values_update : values (update table p e) = update (values table) p e.value :=
  comp_update Entry.value table p e

theorem initTable_rep : Rep initTable fun _ => none :=
  ⟨represents_empty _ _ fun _ => rfl, fun _ _ _ hi => by cases hi⟩

theorem searchSlot_eq (hkey : 0 ≤ key) : searchSlot table key =
    some (probe (fun i => cells table i = .empty ∨ cells table i = .key key) TABLE_SIZE
      (home key)) := by
  rw [searchSlot, scan_eq hkey]
  congr 2
  simp [cells, cell_eq_empty, cell_eq_key, hkey]

theorem searchSlot_cases (table : Table) (hkey : 0 ≤ key) :
    (searchSlot table key = some none ∧ find home (cells table) key = none) ∨
      (∃ j, searchSlot table key = some (some j) ∧ (table j).key = EMPTY ∧
        find home (cells table) key = none) ∨
      ∃ j, searchSlot table key = some (some j) ∧ (table j).key = key ∧
        find home (cells table) key = some j := by
  rw [searchSlot_eq hkey, find]
  cases hprobe : probe (fun i => cells table i = .empty ∨ cells table i = .key key) TABLE_SIZE
    (home key) with
  | none => exact .inl ⟨rfl, rfl⟩
  | some j =>
    rcases of_decide_eq_true (probe_eq_some_iff.1 hprobe).1 with hj | hj
    · refine .inr (.inl ⟨j, rfl, cell_eq_empty.1 hj, ?_⟩)
      simp [hj]
    · refine .inr (.inr ⟨j, rfl, (cell_eq_key.1 hj).2, ?_⟩)
      simp [hj]

theorem search_eq (table : Table) (hkey : 0 ≤ key) :
    search table key = some (((find home (cells table) key).map (values table)).getD (-1)) := by
  rcases searchSlot_cases table hkey
    with ⟨hslot, hfind⟩ | ⟨j, hslot, hj, hfind⟩ | ⟨j, hslot, hj, hfind⟩
  · simp [search, hslot, hfind]
  · simp [search, hslot, hfind, hj, EMPTY]
  · have hne : ¬key = -1 := by omega
    simp [search, hslot, hfind, hj, hne, values]

/-! ## The calls -/

/-- An insertion has to take the entry of its key, or a free one if the key has none. -/
def allowed (table : Table) : MapCall Int Int → Bool
  | .insert key _ =>
    match insertSlot table key with
    | some (some p) => ((table p).key < 0 ∨ (table p).key = key) ∧ ∀ i, (table i).key = key → i = p
    | _ => false
  | .delete _ => true

theorem insert_rep (h : Rep table m) (hkey : 0 ≤ key) (hok : allowed table (.insert key value)) :
    ∃ table', insert table key value = some table' ∧ Rep table' (update m key (some value)) := by
  have hslot : insertSlot table key = some (probe (fun i => (table i).key = EMPTY ∨
      (table i).value = DELETED) TABLE_SIZE (home key)) := scan_eq hkey
  cases hprobe : probe (fun i => (table i).key = EMPTY ∨ (table i).value = DELETED) TABLE_SIZE
    (home key) with
  | none =>
    rw [allowed, hslot, hprobe] at hok
    cases hok
  | some p =>
    rw [hprobe] at hslot
    simp only [allowed, hslot, decide_eq_true_eq] at hok
    rcases hok with ⟨hfree, honly⟩
    have honly' : ∀ i, cells table i = .key key → i = p := fun i hi => honly i (cell_eq_key.1 hi).2
    have hbefore : ∀ i, Before (home key) i p →
      cells table i ≠ .empty ∧ cells table i ≠ .key key := by
      intro i hi
      have hpassed := of_decide_eq_false ((probe_eq_some_iff.1 hprobe).2 i hi)
      exact ⟨fun heq => hpassed (.inl (cell_eq_empty.1 heq)), fun heq => hi.ne (honly' i heq)⟩
    have hplace : ∀ key', cells table p = .key key' → key' = key := by
      intro key' hp
      have hp' := cell_eq_key.1 hp
      omega
    have hcell : cell ⟨key, value⟩ = .key key := cell_eq_key.2 ⟨hkey, rfl⟩
    refine ⟨update table p ⟨key, value⟩, by simp [insert, hslot], ?_, ?_⟩
    · rw [cells_update, values_update, hcell]
      exact h.represents.put hbefore hplace value
    · rw [cells_update, hcell]
      exact h.distinct.put honly'

theorem delete_rep (h : Rep table m) (hkey : 0 ≤ key) :
    ∃ table', delete table key = some table' ∧ Rep table' (update m key none) := by
  rcases searchSlot_cases table hkey
    with ⟨hslot, hfind⟩ | ⟨j, hslot, hj, hfind⟩ | ⟨j, hslot, hj, hfind⟩
  · exact ⟨table, by simp [delete, hslot], h.represents.erase_of_find_eq_none hfind, h.distinct⟩
  · exact ⟨table, by simp [delete, hslot, hj], h.represents.erase_of_find_eq_none hfind, h.distinct⟩
  · have hne : ¬key = EMPTY := by
      rw [EMPTY]
      omega
    have hcell : cells table j = .key key := cell_eq_key.2 ⟨hkey, hj⟩
    -- the value stays in the deleted entry
    have hvalues : update (values table) j (table j).value = values table :=
      update_eq_self j (values table)
    refine ⟨update table j { table j with key := DELETED }, by simp [delete, hslot, hj, hne], ?_,
      ?_⟩
    · rw [cells_update, values_update, hvalues]
      exact h.represents.take hcell fun i hi => h.distinct key i j hi hcell
    · rw [cells_update]
      exact h.distinct.take j

/-! ## Sequences of calls -/

def keyOf : MapCall Int Int → Int
  | .insert key _ => key
  | .delete key => key

theorem call_rep {made : List (MapCall Int Int)} (h : Rep table (mapAfter made))
    {c : MapCall Int Int} (hkey : 0 ≤ keyOf c) (hok : allowed table c) :
    ∃ table', call table c = some table' ∧ Rep table' (mapAfter (made ++ [c])) := by
  rw [mapAfter_concat]
  cases c with
  | insert key value => exact insert_rep h hkey hok
  | delete key => exact delete_rep h hkey

/-- As long as every insertion takes the entry of its key, or a free one if its key has none,
`search` returns the value of the last insertion of a key that was not deleted since, and -1 for
other keys. -/
theorem int_table_is_map (calls : List (MapCall Int Int)) (hkeys : ∀ c ∈ calls, 0 ≤ keyOf c)
    (hok : guarded call allowed initTable calls) : ∃ table, run calls = some table ∧
      ∀ key, 0 ≤ key → search table key = some ((mapAfter calls key).getD (-1)) := by
  rcases runCalls_guarded (R := fun table made => Rep table (mapAfter made))
    (fun table made c hc h hcok => call_rep h (hkeys c hc) hcok) initTable_rep hok
      with ⟨table, hrun, h⟩
  refine ⟨table, hrun, fun key hkey => ?_⟩
  rw [search_eq table hkey, h.represents.lookup]

/-- A collision, a key that comes back, and an entry with the value -2 that is changed in place. -/
def fineCalls : List (MapCall Int Int) :=
  [.insert 5 50, .insert 15 150, .delete 5, .insert 5 51, .insert 7 (-2), .insert 7 70, .delete 15]

theorem int_table_is_map_collision : ∃ table, run fineCalls = some table ∧
    ∀ key, 0 ≤ key → search table key = some ((mapAfter fineCalls key).getD (-1)) :=
  int_table_is_map fineCalls (by decide) (by decide +kernel)

/-- A key that is inserted again keeps its old value, and an entry with the value -2 goes to the
next key with its hash value, in tables that are far from full. -/
theorem value_minus_two_is_lost :
    (run [.insert 5 50, .insert 5 51]).bind (fun table => search table 5) = some 50 ∧
      mapAfter [.insert 5 50, .insert 5 51] (5 : Int) = some (51 : Int) ∧
      (run [.insert 5 (-2), .insert 15 150]).bind (fun table => search table 5) = some (-1) ∧
      mapAfter [.insert 5 (-2), .insert 15 150] (5 : Int) = some (-2 : Int) := by
  decide +kernel

/-! ## Deleted entries are not used again -/

open Finset

def free (e : Entry) : Bool := e.key = EMPTY ∨ e.value = DELETED

def freeSlots (table : Table) : Finset (Fin TABLE_SIZE) := univ.filter fun i => free (table i)

/-- The insertions of a value that does not look deleted. -/
def filled (calls : List (MapCall Int Int)) : Nat :=
  calls.countP fun
    | .insert _ value => value ≠ DELETED
    | .delete _ => false

theorem mem_freeSlots : p ∈ freeSlots table ↔ free (table p) = true := by
  rw [freeSlots, mem_filter, and_iff_right (mem_univ p)]

theorem insertSlot_eq (hkey : 0 ≤ key) :
    insertSlot table key = some (probe (fun i => free (table i)) TABLE_SIZE (home key)) :=
      scan_eq hkey

/-- An insertion fails only if no entry is free; else it takes one. -/
theorem insert_cases (table : Table) (value : Int) (hkey : 0 ≤ key) :
    (insert table key value = some table ∧ freeSlots table = ∅) ∨
      ∃ p, insert table key value = some (update table p ⟨key, value⟩) ∧ p ∈ freeSlots table ∧
        ∀ i, Before (home key) i p → free (table i) = false := by
  cases hprobe : probe (fun i => free (table i)) TABLE_SIZE (home key) with
  | none =>
    refine .inl ⟨by rw [insert, insertSlot_eq hkey, hprobe]; rfl,
      eq_empty_of_forall_notMem fun i hi => ?_⟩
    rw [mem_freeSlots, probe_eq_none_iff.1 hprobe i] at hi
    cases hi
  | some p =>
    rcases probe_eq_some_iff.1 hprobe with ⟨hp, hbefore⟩
    exact .inr ⟨p, by rw [insert, insertSlot_eq hkey, hprobe]; rfl, mem_freeSlots.2 hp, hbefore⟩

theorem freeSlots_update : freeSlots (update table p e) =
    if free e then Insert.insert p (freeSlots table) else (freeSlots table).erase p := by
  ext i
  rw [mem_freeSlots]
  by_cases hip : i = p
  · split
    · simp [*]
    · simp [*]
  · rw [update_of_ne hip]
    split
    · rw [mem_insert, or_iff_right hip, mem_freeSlots]
    · rw [mem_erase, and_iff_right hip, mem_freeSlots]

theorem insert_freeSlots (table : Table) (value : Int) (hkey : 0 ≤ key) :
    ∃ table', insert table key value = some table' ∧
    (freeSlots table').card = (freeSlots table).card - if value = DELETED then 0 else 1 := by
  have hfree : free ⟨key, value⟩ = decide (value = DELETED) := by
    have hne : key ≠ EMPTY := by
      rw [EMPTY]
      omega
    simp [free, hne]
  rcases insert_cases table value hkey with ⟨hinsert, hnone⟩ | ⟨p, hinsert, hp, -⟩
  · exact ⟨table, hinsert, by rw [hnone, card_empty, Nat.zero_sub]⟩
  · refine ⟨_, hinsert, ?_⟩
    rw [freeSlots_update, hfree]
    by_cases hvalue : value = DELETED
    · simp [hvalue, insert_eq_self.2 hp]
    · simp [hvalue, card_erase_of_mem hp]

/-- A deletion leaves the value, and the key was not `EMPTY` before. -/
theorem delete_freeSlots (table : Table) (hkey : 0 ≤ key) :
    ∃ table', delete table key = some table' ∧ freeSlots table' = freeSlots table := by
  have hne : ¬key = EMPTY := by
    rw [EMPTY]
    omega
  rcases searchSlot_cases table hkey with ⟨hslot, -⟩ | ⟨j, hslot, hj, -⟩ | ⟨j, hslot, hj, -⟩
  · exact ⟨table, by simp [delete, hslot], rfl⟩
  · exact ⟨table, by simp [delete, hslot, hj], rfl⟩
  · have hfree : free { table j with key := DELETED } = free (table j) := by
      have hdeleted : DELETED ≠ EMPTY := by decide
      simp [free, hdeleted, hj, hne]
    refine ⟨update table j { table j with key := DELETED }, by simp [delete, hslot, hj, hne], ?_⟩
    rw [freeSlots_update, hfree]
    split_ifs with hmem
    · exact insert_eq_self.2 (mem_freeSlots.2 hmem)
    · exact erase_eq_of_notMem fun hj' => hmem (mem_freeSlots.1 hj')

theorem call_freeSlots {made : List (MapCall Int Int)} {c : MapCall Int Int} (hkey : 0 ≤ keyOf c)
    (h : (freeSlots table).card = TABLE_SIZE - filled made) :
    ∃ table', call table c = some table' ∧
      (freeSlots table').card = TABLE_SIZE - filled (made ++ [c]) := by
  cases c with
  | insert key value =>
    rcases insert_freeSlots table value hkey with ⟨table', hinsert, hcard⟩
    refine ⟨table', hinsert, ?_⟩
    rw [hcard, h, filled, filled]
    by_cases hvalue : value = DELETED
    · simp [hvalue]
    · simp [Nat.sub_sub]
  | delete key =>
    rcases delete_freeSlots table hkey with ⟨table', hdelete, hsame⟩
    refine ⟨table', hdelete, ?_⟩
    rw [hsame, h, filled, filled, List.countP_append]
    rfl

theorem run_freeSlots (calls : List (MapCall Int Int)) (hkeys : ∀ c ∈ calls, 0 ≤ keyOf c) :
    ∃ table, run calls = some table ∧ (freeSlots table).card = TABLE_SIZE - filled calls :=
  runCalls_guarded (R := fun table made => (freeSlots table).card = TABLE_SIZE - filled made)
    (fun _ _ c hc h _ => call_freeSlots (hkeys c hc) h) (by decide)
      (guarded_true call initTable calls)

/-- After any calls with keys that are not negative, an insertion of a key that is not in the table
puts it in, where `search` finds it, exactly if fewer than `TABLE_SIZE` values other than -2 were
inserted before, however many of them were deleted; else it changes nothing. -/
theorem insertion_succeeds_iff_filled (calls : List (MapCall Int Int))
    (hkeys : ∀ c ∈ calls, 0 ≤ keyOf c) :
    ∃ table, run calls = some table ∧ ∀ key value, 0 ≤ key → (∀ i, (table i).key ≠ key) →
      ∃ table', insert table key value = some table' ∧ (filled calls < TABLE_SIZE →
          (∃ i, table' i = ⟨key, value⟩) ∧ search table' key = some value) ∧
        (TABLE_SIZE ≤ filled calls → table' = table) := by
  rcases run_freeSlots calls hkeys with ⟨table, hrun, hcard⟩
  refine ⟨table, hrun, fun key value hkey habsent => ?_⟩
  rcases insert_cases table value hkey with ⟨hinsert, hnone⟩ | ⟨p, hinsert, hp, hbefore⟩
  · refine ⟨table, hinsert, fun hlt => ?_, fun _ => rfl⟩
    rw [hnone, card_empty] at hcard
    omega
  · refine ⟨_, hinsert, fun _ => ⟨⟨p, update_self ..⟩, ?_⟩, fun hge => ?_⟩
    · have hcell : cell ⟨key, value⟩ = .key key := cell_eq_key.2 ⟨hkey, rfl⟩
      have hfind : find home (cells (update table p ⟨key, value⟩)) key = some p := by
        rw [cells_update, hcell]
        refine find_put_self fun i hi =>
          ⟨fun hempty => ?_, fun hi' => habsent i (cell_eq_key.1 hi').2⟩
        have hpassed := hbefore i hi
        rw [free, decide_eq_false_iff_not] at hpassed
        exact hpassed (.inl (cell_eq_empty.1 hempty))
      rw [search_eq _ hkey, hfind, values_update, map_some, update_self, getD_some]
    · rw [Nat.sub_eq_zero_of_le hge, card_eq_zero] at hcard
      rw [hcard] at hp
      cases hp

def tenInsertions : List (MapCall Int Int) :=
  (List.range 10).map (fun key : Nat => .insert key (key * 10)) ++ [.delete 3]

/-- Nine insertions and a deletion leave room for one more. -/
theorem insertion_succeeds_after_nine : ∃ table table', run (tenInsertions.drop 1) = some table ∧
    insert table 13 130 = some table' ∧ (∃ i, table' i = ⟨13, 130⟩) ∧
      search table' 13 = some 130 := by
  rcases insertion_succeeds_iff_filled (tenInsertions.drop 1) (by decide)
    with ⟨table, hrun, hinsert⟩
  have habsent : ∃ table, run (tenInsertions.drop 1) = some table ∧ ∀ i, (table i).key ≠ 13 := by
    decide +kernel
  rcases habsent with ⟨_, hrun', habsent⟩
  cases hrun.symm.trans hrun'
  rcases hinsert 13 130 (by decide) habsent with ⟨table', heq, hroom, -⟩
  exact ⟨table, table', hrun, heq, hroom (by decide)⟩

/-- Nine keys are present, 13 is not one of them, and its insertion changes nothing. -/
theorem deleted_slot_not_reused :
    ∃ table, run tenInsertions = some table ∧ (univ.filter fun i => 0 ≤ (table i).key).card = 9 ∧
      (∀ i, (table i).key ≠ 13) ∧ insert table 13 130 = some table ∧
      search table 13 = some (-1) := by
  decide +kernel

end SystemsLab.IntTable
