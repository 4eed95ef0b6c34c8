import SystemsLab.Concurrent.Outline
import SystemsLab.Data.ExchangeSort
import SystemsLab.KeyStore.KeyTable

/-!
# The store of `s_mem_key_value_stored_with_mvcc.c`

Every slot keeps its versions newest first.  A transaction reads as of its `start_ts`, collects its
writes locally, and `txn_commit` locks the written slots in ascending order, aborts if one of them
has a version newer than `start_ts`, draws a `commit_ts` and installs its versions.

* `Store` — the shared data and four ghost histories (`commits`, `reads`, `wrote`, `stamped`);
* `lockWriteKeysSorted` — the order in which `lock_write_keys_sorted` locks;
* `code` — every call of the store, one instruction for each mutex operation and each access to the
  shared data.

Any number of threads make any calls on any transactions.  `txn_write` changes `t->writes` without a
lock, so its caller must not let it overlap a commit or an abort of the same transaction: the
model's `txn_write` has its last step only while `t->mtx` is free and `t` active.  The timestamps
are `Nat`; `clock_never_wraps` shows that an `unsigned long` never wraps.
-/

namespace SystemsLab.Mvcc

open Concurrent KeyStore Function

/-! ## Data -/

structure Version where
  value : Value
  commitTs : Nat
  deriving DecidableEq

structure Transaction where
  startTs : Nat
  status : TxnStatus
  writes : List WriteEntry
  deriving DecidableEq

/-- A transaction that has drawn its `commit_ts`, with the write list it installs. -/
structure Commit where
  txn : Nat
  commitTs : Nat
  writes : List WriteEntry
  deriving DecidableEq

/-- Where `txn_read` found its result. -/
inductive Source
  | ownWrite
  | version (v : Version)
  | nothing
  deriving DecidableEq

/-- A `txn_read` that has returned; `hadWritten` tells whether the transaction had written the slot
before. -/
structure ReadRecord where
  txn : Nat
  slot : Slot
  result : Value
  source : Source
  hadWritten : Bool
  deriving DecidableEq

structure Store where
  keys : KeyTable
  versions : Slot → List Version
  txns : Nat → Option Transaction
  globalTs : Nat
  nextTxnId : Nat
  commits : List Commit
  reads : List ReadRecord
  /-- The transactions and slots of all `txn_write` calls. -/
  wrote : List (Nat × Slot)
  /-- The transactions that have drawn a `commit_ts`. -/
  stamped : List Nat

def initialStore : Store :=
  { keys := fun _ => none
    versions := fun _ => []
    txns := fun _ => none
    globalTs := 1
    nextTxnId := 1
    commits := []
    reads := []
    wrote := []
    stamped := [] }

/-- The loop of `txn_read`: skip the versions newer than the transaction. -/
def scanVersions : List Version → Nat → Option Version
  | [], _ => none
  | v :: vs, startTs => if v.commitTs > startTs then scanVersions vs startTs else some v

/-- The test of the validation loop: the head version is newer than the transaction. -/
def headNewer : List Version → Nat → Bool
  | [], _ => false
  | head :: _, startTs => head.commitTs > startTs

/-! ## Locking the written slots -/

/-- The first loop of `lock_write_keys_sorted`: each slot of the write list once. -/
def collectKeys : List WriteEntry → (Slot → Bool) → List Slot → List Slot
  | [], _, keys => keys
  | w :: ws, present, keys =>
    if present w.keyIdx then
      collectKeys ws present keys
    else
      collectKeys ws (update present w.keyIdx true) (keys ++ [w.keyIdx])

/-- The slots that `lock_write_keys_sorted` locks, in the order of its last loop. -/
def lockWriteKeysSorted (writes : List WriteEntry) : List Slot :=
  ExchangeSort.exchangeSort (collectKeys writes (fun _ => false) [])

/-! ## Accesses to the data -/

namespace Store

def setTxn (d : Store) (t : Nat) (T : Transaction) : Store :=
  { d with txns := update d.txns t (some T) }

/-- The critical section of `get_or_create_key` once it has found `idx`. -/
def openKey (d : Store) (k : CString) (idx : Slot) : Store :=
  { d with
    keys := useSlot d.keys k idx
    versions := if d.keys idx = none then update d.versions idx [] else d.versions }

def tick (d : Store) : Store :=
  { d with globalTs := d.globalTs + 1 }

def takeId (d : Store) : Store :=
  { d with nextTxnId := d.nextTxnId + 1 }

def publish (d : Store) (id startTs : Nat) : Store :=
  d.setTxn id { startTs := startTs, status := .active, writes := [] }

def recordRead (d : Store) (t : Nat) (idx : Slot) (result : Value) (source : Source) : Store :=
  { d with reads := ⟨t, idx, result, source, (t, idx) ∈ d.wrote⟩ :: d.reads }

/-- `txn_read` on the version list. -/
def readVersions (d : Store) (t : Nat) (T : Transaction) (idx : Slot) : Store :=
  match scanVersions (d.versions idx) T.startTs with
  | none => d.recordRead t idx CBuf.empty .nothing
  | some v => d.recordRead t idx v.value (.version v)

/-- The end of `txn_write`. -/
def write (d : Store) (t : Nat) (T : Transaction) (idx : Slot) (value : CString) : Store :=
  { d.setTxn t { T with writes := putWrite T.writes idx (CBuf.copy value) } with
    wrote := (t, idx) :: d.wrote }

/-- `my_commit_ts = global_ts++` of a transaction without writes. -/
def stampReadOnly (d : Store) (t : Nat) : Store :=
  { d.tick with stamped := t :: d.stamped }

/-- `commit_ts = global_ts++` -/
def stamp (d : Store) (t : Nat) (T : Transaction) : Store :=
  { d.stampReadOnly t with commits := ⟨t, d.globalTs, T.writes⟩ :: d.commits }

/-- Push a new version of the entry's slot. -/
def install (d : Store) (commitTs : Nat) (w : WriteEntry) : Store :=
  { d with
    versions := update d.versions w.keyIdx
      (⟨CBuf.copy w.value.str, commitTs⟩ :: d.versions w.keyIdx) }

def freeWrites (d : Store) (t : Nat) (T : Transaction) : Store :=
  d.setTxn t { T with writes := [] }

def setStatus (d : Store) (t : Nat) (T : Transaction) (status : TxnStatus) : Store :=
  d.setTxn t { T with status := status }

end Store

/-! ## Program -/

inductive Mutex
  | store
  | txns
  | ts
  | txn (id : Nat)
  | key (idx : Slot)
  deriving DecidableEq

/-- The call that an idle thread makes next. -/
inductive Call
  | createTxn
  | txnRead (t : Nat) (key : CString)
  | txnWrite (t : Nat) (key value : CString)
  | txnCommit (t : Nat)
  | txnExplicitAbort (t : Nat)

inductive Pc
  | idle
  -- `create_txn`
  | createLock
  | createCheck
  | createFail
  | createTsLock (id : Nat)
  | createTs (id : Nat)
  | createTsUnlock (id startTs : Nat)
  | createPublish (id startTs : Nat)
  | createUnlock
  -- `txn_read`
  | readTableLock (t : Nat) (key : CString)
  | readTable (t : Nat) (key : CString)
  | readTableUnlock (t : Nat) (idx : Slot)
  | readLocal (t : Nat) (idx : Slot)
  | readLock (t : Nat) (idx : Slot)
  | readScan (t : Nat) (idx : Slot)
  | readUnlock (idx : Slot)
  -- `txn_write`
  | writeTableLock (t : Nat) (key value : CString)
  | writeTable (t : Nat) (key value : CString)
  | writeTableUnlock (t : Nat) (idx : Slot) (value : CString)
  | writeInsert (t : Nat) (idx : Slot) (value : CString)
  -- `txn_commit`; `todo` are the slots still to lock, `locked` is `locked_idxs`
  | commitLock (t : Nat)
  | commitCheck (t : Nat)
  | readOnlyTsLock (t : Nat)
  | readOnlyTs (t : Nat)
  | readOnlyTsUnlock (t : Nat)
  | readOnlyFinish (t : Nat)
  | lockKeys (t : Nat) (todo locked : List Slot)
  | validate (t : Nat) (rest : List WriteEntry) (locked : List Slot)
  | stampLock (t : Nat) (locked : List Slot)
  | stamp (t : Nat) (locked : List Slot)
  | stampUnlock (t commitTs : Nat) (rest : List WriteEntry) (locked : List Slot)
  | install (t commitTs : Nat) (rest : List WriteEntry) (locked : List Slot)
  | unlockKeys (t : Nat) (locked : List Slot) (conflict : Bool)
  | setAborted (t : Nat)
  | txnUnlock (t : Nat)
  -- `txn_explicit_abort`
  | abortLock (t : Nat)
  | abortCheck (t : Nat)
  deriving DecidableEq

/-- Entering a call.  `txn_read` and `txn_write` look at the status without a lock. -/
def enter (d : Store) : Call → Option (Store × Pc)
  | .createTxn => some (d, .createLock)
  | .txnRead t key => (d.txns t).map fun T =>
    (d, if T.status = .active then .readTableLock t key else .idle)
  | .txnWrite t key value => (d.txns t).map fun T =>
    (d, if T.status = .active then .writeTableLock t key value else .idle)
  | .txnCommit t => (d.txns t).map fun _ => (d, .commitLock t)
  | .txnExplicitAbort t => (d.txns t).map fun _ => (d, .abortLock t)

def code : Pc → Instr Mutex Store Pc Call
  | .idle => .act fun _ call _ d => enter d call
  -- create_txn
  | .createLock => .lock .txns noMark .createCheck
  | .createCheck => .act fun _ _ _ d =>
    some (if d.nextTxnId ≥ MAX_TXNS then (d, .createFail)
      else (d.takeId, .createTsLock d.nextTxnId))
  | .createFail => .unlock .txns .idle
  | .createTsLock id => .lock .ts noMark (.createTs id)
  | .createTs id => .act fun _ _ _ d => some (d.tick, .createTsUnlock id d.globalTs)
  | .createTsUnlock id startTs => .unlock .ts (.createPublish id startTs)
  | .createPublish id startTs => .act fun _ _ _ d => some (d.publish id startTs, .createUnlock)
  | .createUnlock => .unlock .txns .idle
  -- txn_read; a full store ends the process, so the step has no successor
  | .readTableLock t key => .lock .store noMark (.readTable t key)
  | .readTable t key => .act fun _ _ _ d => (keySlot d.keys key).map fun idx =>
    (d.openKey key idx, .readTableUnlock t idx)
  | .readTableUnlock t idx => .unlock .store (.readLocal t idx)
  | .readLocal t idx => .act fun _ _ _ d => (d.txns t).map fun T =>
    match findLocalWrite T.writes idx with
    | some w => (d.recordRead t idx w.value .ownWrite, .idle)
    | none => (d, .readLock t idx)
  | .readLock t idx => .lock (.key idx) noMark (.readScan t idx)
  | .readScan t idx => .act fun _ _ _ d => (d.txns t).map fun T =>
    (d.readVersions t T idx, .readUnlock idx)
  | .readUnlock idx => .unlock (.key idx) .idle
  -- txn_write
  | .writeTableLock t key value => .lock .store noMark (.writeTable t key value)
  | .writeTable t key value => .act fun _ _ _ d => (keySlot d.keys key).map fun idx =>
    (d.openKey key idx, .writeTableUnlock t idx value)
  | .writeTableUnlock t idx value => .unlock .store (.writeInsert t idx value)
  | .writeInsert t idx value => .act fun _ _ own d => (d.txns t).bind fun T =>
    if own (.txn t) = none ∧ T.status = .active then some (d.write t T idx value, .idle) else none
  -- txn_commit
  | .commitLock t => .lock (.txn t) noMark (.commitCheck t)
  | .commitCheck t => .act fun _ _ _ d => (d.txns t).map fun T =>
    if T.status ≠ .active then (d, .txnUnlock t)
    else if T.writes = [] then (d, .readOnlyTsLock t)
    else (d, .lockKeys t (lockWriteKeysSorted T.writes) [])
  | .readOnlyTsLock t => .lock .ts noMark (.readOnlyTs t)
  | .readOnlyTs t => .act fun _ _ _ d => some (d.stampReadOnly t, .readOnlyTsUnlock t)
  | .readOnlyTsUnlock t => .unlock .ts (.readOnlyFinish t)
  | .readOnlyFinish t => .act fun _ _ _ d => (d.txns t).map fun T =>
    (d.setStatus t T .committed, .txnUnlock t)
  | .lockKeys t (k :: todo) locked => .lock (.key k) noMark (.lockKeys t todo (locked ++ [k]))
  | .lockKeys t [] locked => .act fun _ _ _ d => (d.txns t).map fun T =>
    (d, .validate t T.writes locked)
  | .validate t (w :: rest) locked => .act fun _ _ _ d => (d.txns t).map fun T =>
    (d, if headNewer (d.versions w.keyIdx) T.startTs then .unlockKeys t locked true
      else .validate t rest locked)
  | .validate t [] locked => .act fun _ _ _ d => some (d, .stampLock t locked)
  | .stampLock t locked => .lock .ts noMark (.stamp t locked)
  | .stamp t locked => .act fun _ _ _ d => (d.txns t).map fun T =>
    (d.stamp t T, .stampUnlock t d.globalTs T.writes locked)
  | .stampUnlock t commitTs rest locked => .unlock .ts (.install t commitTs rest locked)
  | .install t commitTs (w :: rest) locked => .act fun _ _ _ d =>
    some (d.install commitTs w, .install t commitTs rest locked)
  | .install t _ [] locked => .act fun _ _ _ d => (d.txns t).map fun T =>
    (d.freeWrites t T, .unlockKeys t locked false)
  | .unlockKeys t (k :: locked) conflict => .unlock (.key k) (.unlockKeys t locked conflict)
  | .unlockKeys t [] conflict => .act fun _ _ _ d => (d.txns t).map fun T =>
    if conflict then (d.freeWrites t T, .setAborted t)
    else (d.setStatus t T .committed, .txnUnlock t)
  | .setAborted t => .act fun _ _ _ d => (d.txns t).map fun T =>
    (d.setStatus t T .aborted, .txnUnlock t)
  | .txnUnlock t => .unlock (.txn t) .idle
  -- txn_explicit_abort
  | .abortLock t => .lock (.txn t) noMark (.abortCheck t)
  | .abortCheck t => .act fun _ _ _ d => (d.txns t).map fun T =>
    if T.status ≠ .active then (d, .txnUnlock t) else (d.freeWrites t T, .setAborted t)

def init : Config Mutex Store Pc := Config.start initialStore .idle

/-! ## What the instructions do -/

open Option

inductive Locks : Pc → Mutex → Pc → Prop
  | create : Locks .createLock .txns .createCheck
  | createTs (id) : Locks (.createTsLock id) .ts (.createTs id)
  | readTable (t key) : Locks (.readTableLock t key) .store (.readTable t key)
  | read (t idx) : Locks (.readLock t idx) (.key idx) (.readScan t idx)
  | writeTable (t key value) : Locks (.writeTableLock t key value) .store (.writeTable t key value)
  | commit (t) : Locks (.commitLock t) (.txn t) (.commitCheck t)
  | readOnlyTs (t) : Locks (.readOnlyTsLock t) .ts (.readOnlyTs t)
  | key (t k todo locked) :
      Locks (.lockKeys t (k :: todo) locked) (.key k) (.lockKeys t todo (locked ++ [k]))
  | stamp (t locked) : Locks (.stampLock t locked) .ts (.stamp t locked)
  | abort (t) : Locks (.abortLock t) (.txn t) (.abortCheck t)

variable {p p' : Pc} {m : Mutex} {own : Mutex → Option Nat} {d d' : Store}

theorem locks_of_code {next : Pc} {mark : Nat → Store → Store}
    (h : code p = .lock m mark next) : mark = noMark ∧ Locks p m next := by
  cases p with
  | lockKeys t todo locked =>
    cases todo with
    | nil => cases h
    | cons k todo =>
      cases h
      exact ⟨rfl, Locks.key t k todo locked⟩
  | validate t rest locked => cases rest <;> cases h
  | install t commitTs rest locked => cases rest <;> cases h
  | unlockKeys t locked conflict => cases locked <;> cases h
  | _ => cases h <;> exact ⟨rfl, by constructor⟩

inductive Unlocks : Pc → Mutex → Pc → Prop
  | createFail : Unlocks .createFail .txns .idle
  | createTs (id startTs) : Unlocks (.createTsUnlock id startTs) .ts (.createPublish id startTs)
  | create : Unlocks .createUnlock .txns .idle
  | readTable (t idx) : Unlocks (.readTableUnlock t idx) .store (.readLocal t idx)
  | read (idx) : Unlocks (.readUnlock idx) (.key idx) .idle
  | writeTable (t idx value) :
      Unlocks (.writeTableUnlock t idx value) .store (.writeInsert t idx value)
  | readOnlyTs (t) : Unlocks (.readOnlyTsUnlock t) .ts (.readOnlyFinish t)
  | stamp (t commitTs rest locked) :
      Unlocks (.stampUnlock t commitTs rest locked) .ts (.install t commitTs rest locked)
  | key (t k locked conflict) :
      Unlocks (.unlockKeys t (k :: locked) conflict) (.key k) (.unlockKeys t locked conflict)
  | txn (t) : Unlocks (.txnUnlock t) (.txn t) .idle

theorem unlocks_of_code {next : Pc} (h : code p = .unlock m next) : Unlocks p m next := by
  cases p with
  | lockKeys t todo locked => cases todo <;> cases h
  | validate t rest locked => cases rest <;> cases h
  | install t commitTs rest locked => cases rest <;> cases h
  | unlockKeys t locked conflict =>
    cases locked with
    | nil => cases h
    | cons k locked =>
      cases h
      exact .key t k locked conflict
  | _ => cases h <;> constructor

inductive Acts (own : Mutex → Option Nat) (d : Store) : Pc → Store → Pc → Prop
  | callCreate : Acts own d .idle d .createLock
  | callRefused : Acts own d .idle d .idle
  | callRead (t key) : Acts own d .idle d (.readTableLock t key)
  | callWrite (t key value) : Acts own d .idle d (.writeTableLock t key value)
  | callCommit (t) (h : d.txns t ≠ none) : Acts own d .idle d (.commitLock t)
  | callAbort (t) (h : d.txns t ≠ none) : Acts own d .idle d (.abortLock t)
  | createFull : Acts own d .createCheck d .createFail
  | createId (h : d.nextTxnId < MAX_TXNS) :
      Acts own d .createCheck d.takeId (.createTsLock d.nextTxnId)
  | createTs (id) : Acts own d (.createTs id) d.tick (.createTsUnlock id d.globalTs)
  | publish (id startTs) :
      Acts own d (.createPublish id startTs) (d.publish id startTs) .createUnlock
  | readKey (t key idx) : Acts own d (.readTable t key) (d.openKey key idx) (.readTableUnlock t idx)
  | readOwn (t idx T w) (hT : d.txns t = some T) (hw : findLocalWrite T.writes idx = some w) :
      Acts own d (.readLocal t idx) (d.recordRead t idx w.value .ownWrite) .idle
  | readShared (t idx) : Acts own d (.readLocal t idx) d (.readLock t idx)
  | readScan (t idx T) (hT : d.txns t = some T) :
      Acts own d (.readScan t idx) (d.readVersions t T idx) (.readUnlock idx)
  | writeKey (t key value idx) :
      Acts own d (.writeTable t key value) (d.openKey key idx) (.writeTableUnlock t idx value)
  | write (t idx value T) (hT : d.txns t = some T) (hfree : own (.txn t) = none)
      (hactive : T.status = .active) :
      Acts own d (.writeInsert t idx value) (d.write t T idx value) .idle
  | commitRefused (t T) (hT : d.txns t = some T) (h : T.status ≠ .active) :
      Acts own d (.commitCheck t) d (.txnUnlock t)
  | commitReadOnly (t T) (hT : d.txns t = some T) (hactive : T.status = .active)
      (hw : T.writes = []) : Acts own d (.commitCheck t) d (.readOnlyTsLock t)
  | commitWrites (t T) (hT : d.txns t = some T) (hactive : T.status = .active) :
      Acts own d (.commitCheck t) d (.lockKeys t (lockWriteKeysSorted T.writes) [])
  | readOnlyTs (t) : Acts own d (.readOnlyTs t) (d.stampReadOnly t) (.readOnlyTsUnlock t)
  | readOnlyFinish (t T) (hT : d.txns t = some T) :
      Acts own d (.readOnlyFinish t) (d.setStatus t T .committed) (.txnUnlock t)
  | keysLocked (t locked T) (hT : d.txns t = some T) :
      Acts own d (.lockKeys t [] locked) d (.validate t T.writes locked)
  | conflict (t w rest locked) :
      Acts own d (.validate t (w :: rest) locked) d (.unlockKeys t locked true)
  | noConflict (t) (w : WriteEntry) (rest locked T) (hT : d.txns t = some T) (h : headNewer
      (d.versions w.keyIdx) T.startTs = false) :
      Acts own d (.validate t (w :: rest) locked) d (.validate t rest locked)
  | validated (t locked) : Acts own d (.validate t [] locked) d (.stampLock t locked)
  | stamp (t locked T) (hT : d.txns t = some T) :
      Acts own d (.stamp t locked) (d.stamp t T) (.stampUnlock t d.globalTs T.writes locked)
  | install (t commitTs w rest locked) :
      Acts own d (.install t commitTs (w :: rest) locked) (d.install commitTs w)
        (.install t commitTs rest locked)
  | installed (t commitTs locked T) (hT : d.txns t = some T) :
      Acts own d (.install t commitTs [] locked) (d.freeWrites t T) (.unlockKeys t locked false)
  | abortConflict (t T) (hT : d.txns t = some T) :
      Acts own d (.unlockKeys t [] true) (d.freeWrites t T) (.setAborted t)
  | commit (t T) (hT : d.txns t = some T) :
      Acts own d (.unlockKeys t [] false) (d.setStatus t T .committed) (.txnUnlock t)
  | setAborted (t T) (hT : d.txns t = some T) :
      Acts own d (.setAborted t) (d.setStatus t T .aborted) (.txnUnlock t)
  | abortRefused (t T) (hT : d.txns t = some T) (h : T.status ≠ .active) :
      Acts own d (.abortCheck t) d (.txnUnlock t)
  | abort (t T) (hT : d.txns t = some T) (hactive : T.status = .active) :
      Acts own d (.abortCheck t) (d.freeWrites t T) (.setAborted t)

theorem acts_of_enter {call : Call} (h : enter d call = some (d', p')) :
    Acts own d .idle d' p' := by
  cases call with
  | createTxn =>
    cases h
    exact Acts.callCreate
  | txnRead t key | txnWrite t key value =>
    simp only [enter, map_eq_some_iff] at h
    rcases h with ⟨T, -, rfl, rfl⟩
    split <;> constructor
  | txnCommit t | txnExplicitAbort t =>
    simp only [enter, map_eq_some_iff] at h
    rcases h with ⟨T, hT, rfl, rfl⟩
    constructor
    simp [hT]

theorem acts_of_code {th : Nat} {i : Call}
    {f : Nat → Call → (Mutex → Option Nat) → Store → Option (Store × Pc)}
    (hc : code p = .act f) (hf : f th i own d = some (d', p')) : Acts own d p d' p' := by
  cases p with
  | idle =>
    cases hc
    exact acts_of_enter hf
  | createCheck =>
    cases hc
    by_cases hfull : d.nextTxnId ≥ MAX_TXNS
    · simp only [hfull] at hf
      cases hf
      exact Acts.createFull
    · simp only [hfull] at hf
      cases hf
      exact .createId (not_le.1 hfull)
  | createTs id | createPublish id startTs | readOnlyTs t =>
    cases hc
    cases hf
    constructor
  | readTable t key | writeTable t key value =>
    cases hc
    rcases map_eq_some_iff.1 hf with ⟨idx, -, ⟨⟩⟩
    constructor
  | readScan t idx | readOnlyFinish t | stamp t locked | setAborted t =>
    cases hc
    rcases map_eq_some_iff.1 hf with ⟨T, hT, ⟨⟩⟩
    constructor
    exact hT
  | readLocal t idx =>
    cases hc
    rcases map_eq_some_iff.1 hf with ⟨T, hT, hres⟩
    split at hres
    · rename_i w hw
      cases hres
      exact .readOwn t idx T w hT hw
    · cases hres
      exact .readShared t idx
  | writeInsert t idx value =>
    cases hc
    simp only [bind_eq_some_iff, ite_none_right_eq_some] at hf
    rcases hf with ⟨T, hT, ⟨hfree, hactive⟩, rfl, rfl⟩
    exact .write t idx value T hT hfree hactive
  | commitCheck t =>
    cases hc
    rcases map_eq_some_iff.1 hf with ⟨T, hT, hres⟩
    split at hres
    · rename_i h
      cases hres
      exact .commitRefused t T hT h
    · rename_i h
      have hactive : T.status = .active := not_not.1 h
      split_ifs at hres with hw
      · cases hres
        exact .commitReadOnly t T hT hactive hw
      · cases hres
        exact .commitWrites t T hT hactive
  | lockKeys t todo locked =>
    cases todo with
    | nil =>
      cases hc
      rcases map_eq_some_iff.1 hf with ⟨T, hT, ⟨⟩⟩
      exact .keysLocked t locked T hT
    | cons k todo => cases hc
  | validate t rest locked =>
    cases rest with
    | nil =>
      cases hc
      cases hf
      exact .validated t locked
    | cons w rest =>
      cases hc
      rcases map_eq_some_iff.1 hf with ⟨T, hT, ⟨⟩⟩
      split_ifs with h
      · exact .conflict t w rest locked
      · exact .noConflict t w rest locked T hT (by simpa using h)
  | install t commitTs rest locked =>
    cases rest with
    | nil =>
      cases hc
      rcases map_eq_some_iff.1 hf with ⟨T, hT, ⟨⟩⟩
      exact .installed t commitTs locked T hT
    | cons w rest =>
      cases hc
      cases hf
      exact .install t commitTs w rest locked
  | unlockKeys t locked conflict =>
    cases locked with
    | nil =>
      cases hc
      rcases map_eq_some_iff.1 hf with ⟨T, hT, hres⟩
      cases conflict with
      | true =>
        cases hres
        exact .abortConflict t T hT
      | false =>
        cases hres
        exact .commit t T hT
    | cons k locked => cases hc
  | abortCheck t =>
    cases hc
    rcases map_eq_some_iff.1 hf with ⟨T, hT, hres⟩
    split_ifs at hres with h
    · cases hres
      exact .abortRefused t T hT h
    · cases hres
      exact .abort t T hT (not_not.1 h)
  | _ => cases hc

end SystemsLab.Mvcc
