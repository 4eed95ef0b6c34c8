import SystemsLab.CLib.CString

/-!
# The key slots of the transactional stores

`s_mem_key_value_stored_with_mvcc.c` and `deadlock_mutex_txn.c` find a key's slot the same way: djb2
hash, linear probing over `MAX_KEYS` slots, first unused slot for a new key.  The two stores differ
in what they initialise in a new slot, which is left to them.

A slot of the table is `none` while its `used` is `0`.
-/

namespace SystemsLab.KeyStore

abbrev MAX_KEYS : Nat := 128
abbrev MAX_KEY_LEN : Nat := 64
abbrev MAX_VALUE_LEN : Nat := 256
abbrev MAX_TXNS : Nat := 256

abbrev Slot := Fin MAX_KEYS
abbrev Key := CBuf MAX_KEY_LEN
abbrev Value := CBuf MAX_VALUE_LEN

instance neZeroMaxValueLen : NeZero MAX_VALUE_LEN := ⟨by decide⟩

/-- `key` and `used` of every slot. -/
abbrev KeyTable := Slot → Option Key

/-- `hash_key`, on an `unsigned long` of 64 bits -/
def hashKey (k : CString) : Slot :=
  Fin.ofNat MAX_KEYS (k.bytes.foldl (fun h c => ((h <<< 5) + h + c.toNat) % 2 ^ 64) 5381)

/-- The loop of `get_or_create_key`, with the number of slots still to visit; `idx + 1` wraps at
`MAX_KEYS`.  `none` stands for "Key store full". -/
def probe (keys : KeyTable) (k : CString) : Nat → Slot → Option Slot
  | 0, _ => none
  | n + 1, idx =>
    match keys idx with
    | none => some idx
    | some key => if key.str.strncmpEq k MAX_KEY_LEN then some idx else probe keys k n (idx + 1)

def keySlot (keys : KeyTable) (k : CString) : Option Slot :=
  probe keys k MAX_KEYS (hashKey k)

/-- The key column after `get_or_create_key` has returned `idx`. -/
def useSlot (keys : KeyTable) (k : CString) (idx : Slot) : KeyTable :=
  match keys idx with
  | none => Function.update keys idx (some (CBuf.copy k))
  | some _ => keys

theorem useSlot_self (keys : KeyTable) (k : CString) (idx : Slot) :
    useSlot keys k idx idx ≠ none := by
  cases h : keys idx with
  | none => simp [useSlot, h]
  | some key => simp [useSlot, h]

theorem useSlot_of_used {keys : KeyTable} {k : CString} {idx x : Slot} (hx : keys x ≠ none) :
    useSlot keys k idx x = keys x := by
  cases h : keys idx with
  | none =>
    have hne : x ≠ idx := by
      rintro rfl
      exact hx h
    simp [useSlot, h, hne]
  | some key => simp [useSlot, h]

/-! ## Transactions -/

inductive TxnStatus
  | active
  | aborted
  | committed
  deriving DecidableEq, Repr

structure WriteEntry where
  keyIdx : Slot
  value : Value
  deriving DecidableEq

def findLocalWrite (writes : List WriteEntry) (keyIdx : Slot) : Option WriteEntry :=
  writes.find? fun w => w.keyIdx = keyIdx

/-- Store a value in the entry that `find_local_write` has found, the first one of its slot. -/
def overwrite : List WriteEntry → Slot → Value → List WriteEntry
  | [], _, _ => []
  | w :: ws, keyIdx, value =>
    if w.keyIdx = keyIdx then { w with value := value } :: ws else w :: overwrite ws keyIdx value

/-- The end of `txn_write`: a new entry goes to the front, an old one gets the new value. -/
def putWrite (writes : List WriteEntry) (keyIdx : Slot) (value : Value) : List WriteEntry :=
  match findLocalWrite writes keyIdx with
  | none => ⟨keyIdx, value⟩ :: writes
  | some _ => overwrite writes keyIdx value

def slots (writes : List WriteEntry) : List Slot :=
  writes.map WriteEntry.keyIdx

variable {writes : List WriteEntry} {keyIdx : Slot}

theorem mem_slots {w : WriteEntry} (h : w ∈ writes) : w.keyIdx ∈ slots writes :=
  List.mem_map_of_mem h

theorem slots_overwrite (writes : List WriteEntry) (keyIdx : Slot) (value : Value) :
    slots (overwrite writes keyIdx value) = slots writes := by
  induction writes with
  | nil => rfl
  | cons w ws ih =>
    by_cases h : w.keyIdx = keyIdx
    · simp [overwrite, slots, h]
    · simpa [overwrite, slots, h] using ih

theorem findLocalWrite_eq_none : findLocalWrite writes keyIdx = none ↔ keyIdx ∉ slots writes := by
  simp [findLocalWrite, slots]

theorem findLocalWrite_eq_some {w : WriteEntry}
    (h : findLocalWrite writes keyIdx = some w) : w ∈ writes ∧ w.keyIdx = keyIdx :=
  ⟨List.mem_of_find?_eq_some h, by simpa using List.find?_some h⟩

theorem mem_slots_putWrite {x : Slot} {value : Value} :
    x ∈ slots (putWrite writes keyIdx value) ↔ x = keyIdx ∨ x ∈ slots writes := by
  cases h : findLocalWrite writes keyIdx with
  | none => simp [putWrite, h, slots]
  | some w =>
    rcases findLocalWrite_eq_some h with ⟨hw, hk⟩
    have hmem : keyIdx ∈ slots writes := hk ▸ mem_slots hw
    simp only [putWrite, h, slots_overwrite]
    exact ⟨.inr, fun hx => hx.elim (fun e => e ▸ hmem) id⟩

theorem nodup_slots_putWrite (h : (slots writes).Nodup) (keyIdx : Slot)
    (value : Value) : (slots (putWrite writes keyIdx value)).Nodup := by
  cases hf : findLocalWrite writes keyIdx with
  | none =>
    have hnot := findLocalWrite_eq_none.1 hf
    simpa [putWrite, hf, slots] using And.intro (by simpa [slots] using hnot) h
  | some w => simpa [putWrite, hf, slots_overwrite] using h

theorem findLocalWrite_cons (w : WriteEntry) (ws : List WriteEntry) (keyIdx : Slot) :
    findLocalWrite (w :: ws) keyIdx =
      if w.keyIdx = keyIdx then some w else findLocalWrite ws keyIdx := by
  rw [findLocalWrite]
  by_cases h : w.keyIdx = keyIdx
  · simp [h]
  · simp [h, findLocalWrite]

theorem findLocalWrite_overwrite (writes : List WriteEntry) (keyIdx x : Slot) (value : Value) :
    findLocalWrite (overwrite writes keyIdx value) x =
      if x = keyIdx then (findLocalWrite writes x).map fun w => { w with value := value }
      else findLocalWrite writes x := by
  induction writes with
  | nil => simp [overwrite, findLocalWrite]
  | cons w ws ih =>
    rw [overwrite]
    by_cases hw : w.keyIdx = keyIdx
    · rw [if_pos hw, findLocalWrite_cons, findLocalWrite_cons]
      by_cases hx : x = keyIdx
      · simp [hw, hx]
      · have hne : ¬keyIdx = x := Ne.symm hx
        simp [hw, hx, hne]
    · rw [if_neg hw, findLocalWrite_cons, findLocalWrite_cons, ih]
      by_cases hx : x = keyIdx
      · simp [hw, hx]
      · simp [hx]

theorem findLocalWrite_putWrite (writes : List WriteEntry) (keyIdx x : Slot) (value : Value) :
    findLocalWrite (putWrite writes keyIdx value) x =
      if x = keyIdx then some ⟨keyIdx, value⟩ else findLocalWrite writes x := by
  cases hf : findLocalWrite writes keyIdx with
  | none => simp only [putWrite, hf, findLocalWrite_cons, eq_comm]
  | some w =>
    rcases findLocalWrite_eq_some hf with ⟨-, hw⟩
    simp only [putWrite, hf, findLocalWrite_overwrite]
    by_cases hx : x = keyIdx
    · simp [hx, hf, hw]
    · simp [hx]

/-! ## Some keys and values -/

def bracketKey : CString := .ofBytes [91]

def backslashKey : CString := .ofBytes [92]

def closingKey : CString := .ofBytes [93]

example : [bracketKey, backslashKey, closingKey].map hashKey = [0, 1, 2] := by decide

def valueX : CString := .ofBytes [120]

def valueY : CString := .ofBytes [121]

end SystemsLab.KeyStore
