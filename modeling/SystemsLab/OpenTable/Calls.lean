import SystemsLab.CLib.CString
import SystemsLab.Data.CallSequence
import SystemsLab.Data.Probing

/-!
# When the table of `day-4(Hash_Table)/hash-table-with-open-addressing.c` is a map

The `key` of an entry is `EMPTY_KEY`, `DELETED_KEY` or a copy of a string, so it is a `Cell`.
`strdup` does not run out of memory.  The messages are left out; an insertion that reports a full
table leaves it as it is.

A search finds the first entry of its key, and every other entry of that key is behind it.  `insert`
stops at the first deleted entry on its way and does not look for the key behind it, so a key can
get a second entry (`stale_entry_returns`).  The second entry does no harm until the first one is
deleted; then it is found again.
-/

namespace SystemsLab.OpenTable

open CallSequence Probing Function Option

def TABLE_SIZE : Nat := 10

instance neZeroTableSize : NeZero TABLE_SIZE := ⟨by decide⟩

structure Entry where
  key : Cell CString
  value : Int
  deriving DecidableEq

abbrev Table := Fin TABLE_SIZE → Entry

/-- `hash`, with `char` signed. -/
def hash (key : CString) : Fin TABLE_SIZE :=
  let hashValue : UInt32 := key.bytes.foldl (fun h c => h * 31 + c.toInt8.toInt32.toUInt32) 0
  ⟨hashValue.toNat % TABLE_SIZE, Nat.mod_lt _ (by decide)⟩

def init : Table := fun _ => ⟨.empty, 0⟩

def keys (table : Table) (i : Fin TABLE_SIZE) : Cell CString := (table i).key

/-- The loop of `insert`, which stops at a deleted entry as it does at an empty one. -/
def insertSlot (table : Table) (key : CString) : Option (Fin TABLE_SIZE) :=
  probe (fun i => keys table i = .empty ∨ keys table i = .deleted ∨
    keys table i = .key key) TABLE_SIZE
    (hash key)

def insert (table : Table) (key : CString) (value : Int) : Table :=
  match insertSlot table key with
  | none => table
  | some i =>
    if keys table i ≠ .empty ∧ keys table i ≠ .deleted then
      Function.update table i { table i with value := value }
    else Function.update table i ⟨.key key, value⟩

/-- The loop of `search` and of `delete`, which goes on behind deleted entries. -/
def findSlot (table : Table) (key : CString) : Option (Fin TABLE_SIZE) := find hash (keys table) key

def search (table : Table) (key : CString) : Int :=
  match findSlot table key with
  | some i => (table i).value
  | none => -1

def delete (table : Table) (key : CString) : Table :=
  match findSlot table key with
  | some i => Function.update table i { table i with key := .deleted }
  | none => table

def call (table : Table) : MapCall CString Int → Option Table
  | .insert key value => some (insert table key value)
  | .delete key => some (delete table key)

def run (calls : List (MapCall CString Int)) : Option Table := runCalls call init calls

/-! ## The table as a map -/

def values (table : Table) (i : Fin TABLE_SIZE) : Int := (table i).value

/-- The table represents the map `m`. -/
abbrev Rep (table : Table) (m : CString → Option Int) : Prop :=
  Represents hash (keys table) (values table) m

variable {table : Table} {m : CString → Option Int} {key : CString} {value : Int}
  {p : Fin TABLE_SIZE}

theorem search_eq (table : Table) (key : CString) :
    search table key = ((findSlot table key).map (values table)).getD (-1) := by
  rw [search]
  cases findSlot table key with
  | none => rfl
  | some i => rfl

theorem init_rep : Rep init fun _ => none := represents_empty _ _ fun _ => rfl

theorem keys_update (e : Entry) : keys (update table p e) = update (keys table) p e.key :=
  comp_update Entry.key table p e

theorem values_update (e : Entry) : values (update table p e) = update (values table) p e.value :=
  comp_update Entry.value table p e

theorem insertSlot_spec (h : insertSlot table key = some p) :
    (∀ key', keys table p = .key key' → key' = key) ∧
      ∀ i, Before (hash key) i p → keys table i ≠ .empty ∧ keys table i ≠ .key key := by
  rcases probe_eq_some_iff.1 h with ⟨hp, hbefore⟩
  constructor
  · intro key' hkey'
    rcases of_decide_eq_true hp with hp | hp | hp
    · rw [hkey'] at hp
      cases hp
    · rw [hkey'] at hp
      cases hp
    · rw [hkey'] at hp
      exact Cell.key.inj hp
  · intro i hi
    have hi' := of_decide_eq_false (hbefore i hi)
    rw [not_or, not_or] at hi'
    exact ⟨hi'.1, hi'.2.2⟩

theorem insert_eq (h : insertSlot table key = some p) :
    insert table key value = update table p ⟨.key key, value⟩ := by
  simp only [insert, h]
  split_ifs with hused
  · have hp : keys table p = .key key := by
      rcases of_decide_eq_true (probe_eq_some_iff.1 h).1 with hp | hp | hp
      · exact absurd hp hused.1
      · exact absurd hp hused.2
      · exact hp
    have hentry : { table p with value := value } = (⟨.key key, value⟩ : Entry) := by
      rw [← hp]
      rfl
    rw [hentry]
  · rfl

theorem insert_of_full (h : insertSlot table key = none) : insert table key value = table := by
  simp only [insert, h]

theorem insert_rep (h : Rep table m) (hslot : insertSlot table key = some p) (value : Int) :
    Rep (insert table key value) (update m key (some value)) := by
  rcases insertSlot_spec hslot with ⟨hplace, hbefore⟩
  rw [Rep, insert_eq hslot, keys_update, values_update]
  exact h.put hbefore hplace value

/-- The key is in one entry at most. -/
def Single (table : Table) (key : CString) : Prop :=
  ∀ i j, keys table i = .key key → keys table j = .key key → i = j

instance decidableSingle (table : Table) (key : CString) : Decidable (Single table key) := by
  unfold Single
  infer_instance

theorem delete_of_absent (h : findSlot table key = none) : delete table key = table := by
  simp only [delete, h]

theorem delete_eq (h : findSlot table key = some p) :
    delete table key = update table p { table p with key := .deleted } := by
  simp only [delete, h]

theorem delete_rep (h : Rep table m) (hsingle : Single table key) :
    Rep (delete table key) (update m key none) := by
  cases hfind : findSlot table key with
  | none =>
    rw [delete_of_absent hfind]
    exact h.erase_of_find_eq_none hfind
  | some p =>
    have hp := (find_eq_some_iff.1 hfind).1
    -- the value stays in the deleted entry
    have hvalues : update (values table) p (table p).value = values table :=
      update_eq_self p (values table)
    rw [Rep, delete_eq hfind, keys_update, values_update, hvalues]
    exact h.take hp fun j hj => hsingle j p hj hp

/-! ## Calls that go wrong -/

/-- An insertion has to find a place, and a deletion only one entry. -/
def allowed (table : Table) : MapCall CString Int → Bool
  | .insert key _ => (insertSlot table key).isSome
  | .delete key => Single table key

/-- -1 is not in the table. -/
def NoMinusOne (table : Table) : Prop := ∀ i key, keys table i = .key key → (table i).value ≠ -1

theorem NoMinusOne.update {e : Entry} (h : NoMinusOne table)
    (he : ∀ key, e.key = .key key → e.value ≠ -1) : NoMinusOne (update table p e) := by
  intro i key hi
  rw [keys_update] at hi
  by_cases hip : i = p
  · rw [hip, update_self] at hi ⊢
    exact he key hi
  · rw [update_of_ne hip] at hi ⊢
    exact h i key hi

theorem NoMinusOne.insert (h : NoMinusOne table) (hvalue : value ≠ -1) :
    NoMinusOne (OpenTable.insert table key value) := by
  cases hslot : insertSlot table key with
  | none => rwa [insert_of_full hslot]
  | some p =>
    rw [insert_eq hslot]
    exact h.update fun _ _ => hvalue

theorem NoMinusOne.delete (h : NoMinusOne table) : NoMinusOne (OpenTable.delete table key) := by
  cases hfind : findSlot table key with
  | none => rwa [delete_of_absent hfind]
  | some p =>
    rw [delete_eq hfind]
    exact h.update nofun

/-- A key that does not find a place is not in the table afterwards. -/
theorem search_insert_of_full (hslot : insertSlot table key = none) (value : Int) :
    search (insert table key value) key = -1 := by
  have hnowhere : ∀ i, keys table i ≠ .key key := by
    intro i hi
    have hpassed := of_decide_eq_false (probe_eq_none_iff.1 hslot i)
    exact hpassed (.inr (.inr hi))
  have hnone : findSlot table key = none := by
    rw [eq_none_iff_forall_ne_some]
    intro j hj
    exact hnowhere j (find_eq_some_iff.1 hj).1
  rw [insert_of_full hslot, search, hnone]

theorem search_delete_of_not_single (h : Rep table m) (hvalues : NoMinusOne table)
    (hsingle : ¬Single table key) : search (delete table key) key ≠ -1 := by
  rw [Single] at hsingle
  push Not at hsingle
  rcases hsingle with ⟨i, j, hi, hj, hij⟩
  have hsome : findSlot table key ≠ none := fun hnone =>
    h.reachable.find_eq_none_iff.1 hnone i hi
  rcases ne_none_iff_exists'.1 hsome with ⟨p, hp⟩
  -- one of the two entries is not the one that is deleted
  obtain ⟨q, hq, hqp⟩ : ∃ q, keys table q = .key key ∧ q ≠ p := by
    by_cases hip : i = p
    · exact ⟨j, hj, fun hjp => hij (hip.trans hjp.symm)⟩
    · exact ⟨i, hi, hip⟩
  have hfound : findSlot (delete table key) key ≠ none := by
    intro hnone
    rw [delete_eq hp, findSlot, keys_update, (h.reachable.take p).find_eq_none_iff] at hnone
    refine hnone q ?_
    rw [update_of_ne hqp, hq]
  rcases ne_none_iff_exists'.1 hfound with ⟨r, hr⟩
  rw [search, hr]
  exact hvalues.delete r key (find_eq_some_iff.1 hr).1

/-! ## Sequences of calls -/

/-- The results of `search` after the calls are those of the map. -/
def Right (calls : List (MapCall CString Int)) : Prop :=
  ∃ table, run calls = some table ∧ ∀ key, search table key = (mapAfter calls key).getD (-1)

variable {made calls : List (MapCall CString Int)}

theorem call_rep (h : Rep table (mapAfter made)) {c : MapCall CString Int} (hok : allowed table c) :
    ∃ table', call table c = some table' ∧ Rep table' (mapAfter (made ++ [c])) := by
  rw [mapAfter_concat]
  cases c with
  | insert key value =>
    rcases isSome_iff_exists.1 hok with ⟨p, hp⟩
    exact ⟨_, rfl, insert_rep h hp value⟩
  | delete key => exact ⟨_, rfl, delete_rep h (of_decide_eq_true hok)⟩

theorem right_of_rep (h : Rep table (mapAfter made)) (hrun : run made = some table) : Right made :=
  ⟨table, hrun, fun key => by rw [search_eq, findSlot, h.lookup]⟩

theorem not_right_of_not_allowed (h : Rep table (mapAfter made)) (hvalues : NoMinusOne table)
    (hrun : run made = some table) {c : MapCall CString Int}
    (hc : ∀ key value, c = .insert key value → value ≠ -1) (hno : allowed table c = false) :
    ¬Right (made ++ [c]) := by
  rintro ⟨table', hrun', hright⟩
  have hnext : call table c = some table' := by
    rw [run, runCalls_append, ← run, hrun, bind_some, runCalls] at hrun'
    simpa [runCalls] using hrun'
  rw [mapAfter_concat] at hright
  cases c with
  | insert key value =>
    cases hnext
    have hslot := not_isSome_iff_eq_none.1 (Bool.eq_false_iff.1 hno)
    have hkey := hright key
    rw [search_insert_of_full hslot, MapCall.effect, update_self] at hkey
    exact hc key value rfl hkey.symm
  | delete key =>
    cases hnext
    have hkey := hright key
    rw [MapCall.effect, update_self, getD_none] at hkey
    exact search_delete_of_not_single h hvalues (of_decide_eq_false hno) hkey

/-- As long as every insertion finds a place and every deletion only one entry of its key, `search`
returns the value of the last insertion of a key that was not deleted since, and -1 for other keys.
If -1 is never inserted, this is the only way to get the right results all along. -/
theorem table_is_map (calls : List (MapCall CString Int)) :
    (guarded call allowed init calls → ∀ made, made <+: calls → Right made) ∧
      ((∀ key value, .insert key value ∈ calls → value ≠ -1) →
        (∀ made, made <+: calls → Right made) → guarded call allowed init calls) := by
  constructor
  · intro hok made hmade
    rcases runCalls_guarded (R := fun table made => Rep table (mapAfter made))
      (fun table made c _ h hc => call_rep h hc) init_rep (guarded_of_beginning hok hmade) with
      ⟨table, hrun, h⟩
    exact right_of_rep h hrun
  · intro hvalues hright
    refine (guarded_iff_good
      (R := fun table made => Rep table (mapAfter made) ∧ NoMinusOne table) ⟨init_rep,
        nofun⟩ ?_ ?_ ?_).2
      hright
    · rintro table made c hc ⟨h, hno⟩ hok
      rcases call_rep h hok with ⟨table', hcall, h'⟩
      refine ⟨table', hcall, h', ?_⟩
      cases c with
      | insert key value =>
        cases hcall
        exact hno.insert (hvalues key value hc)
      | delete key =>
        cases hcall
        exact hno.delete
    · rintro table made hrun ⟨h, -⟩
      exact right_of_rep h hrun
    · rintro table made c hc hrun ⟨h, hno⟩ hok
      refine not_right_of_not_allowed h hno hrun ?_ hok
      rintro key value rfl
      exact hvalues key value hc

def keyA : CString := .ofBytes [97]

def keyK : CString := .ofBytes [107]

-- A collision, a reused entry and the key behind it, which is changed where it stands.
theorem table_is_map_collision :
    Right [.insert keyA 1, .insert keyK 2, .insert keyK 3, .delete keyA,
    .insert keyA 4, .delete keyK, .insert keyK 5] :=
  (table_is_map [.insert keyA 1, .insert keyK 2, .insert keyK 3, .delete keyA, .insert keyA 4,
    .delete keyK, .insert keyK 5]).1 (by decide +kernel) _ (List.prefix_refl _)

/-- `"k"` is inserted again in front of its entry, and the old entry is back when it is deleted. -/
def staleCalls : List (MapCall CString Int) :=
  [.insert keyA 1, .insert keyK 2, .delete keyA, .insert keyK 3, .delete keyK]

/-- The deleted key is found with its first value. -/
theorem stale_entry_returns : (run staleCalls).map (fun table => search table keyK) = some 2 ∧
    mapAfter staleCalls keyK = none := by
  decide +kernel

end SystemsLab.OpenTable
