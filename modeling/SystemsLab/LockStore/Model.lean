import SystemsLab.Concurrent.Outline
import SystemsLab.LockStore.Detect

/-!
# The store of `deadlock_mutex_txn.c`

A transaction locks every slot that it writes (`acquire_key_lock`), waits on the slot's condition
variable while another transaction owns it, and looks for a cycle of the wait-for matrix before it
waits.  `txn_commit` copies the write list into the store entry by entry.

* `Store` — the shared data, with three ghosts (`driver`, `log`, `copying`);
* `code` — `txn_write` with `acquire_key_lock`, `abort_txn`, `release_all_locks` and `txn_commit`.

Every thread writes and commits the transactions that it has created (`driver`), and aborts any
transaction.  `pthread_mutex_lock` of a `KeyLock` or a transaction is one instruction; the critical
sections of `store_mtx`, `txns_mtx` and `wf_mtx`, which take no other mutex, are single acts.
`pthread_cond_wait` enters the wait set under the slot's mutex, gives the mutex back, sleeps until a
broadcast (or a spurious wakeup) and takes the mutex again.
-/

namespace SystemsLab.LockStore

open Function
open Concurrent KeyStore

/-! ## Data -/

structure Transaction where
  startTs : Nat
  status : TxnStatus
  writes : List WriteEntry
  heldKeys : Slot → Bool

/-- A committed write list. -/
structure Commit where
  txn : Nat
  writes : List WriteEntry
  deriving DecidableEq

structure Store where
  keys : KeyTable
  value : Slot → Value
  /-- `lock.owner_txn`, `0` for nobody. -/
  owner : Slot → Nat
  /-- The threads in the wait set of `lock.cv`. -/
  waiting : Slot → List Nat
  txns : Nat → Option Transaction
  globalTs : Nat
  nextTxnId : Nat
  waitFor : Nat → Nat → Bool
  /-- The thread that has created the transaction. -/
  driver : Nat → Option Nat
  /-- The commits, the last one first, entered when `txn_commit` copies its last write entry. -/
  log : List Commit
  /-- The transaction's commit has begun to copy and has not logged yet. -/
  copying : Nat → Bool

def initialStore : Store :=
  { keys := fun _ => none
    value := fun _ => CBuf.empty
    owner := fun _ => 0
    waiting := fun _ => []
    txns := fun _ => none
    globalTs := 1
    nextTxnId := 1
    waitFor := fun _ _ => false
    driver := fun _ => none
    log := []
    copying := fun _ => false }

namespace Store

def setTxn (d : Store) (t : Nat) (T : Transaction) : Store :=
  { d with txns := update d.txns t (some T) }

def create (d : Store) (th : Nat) : Store :=
  { d.setTxn d.nextTxnId
      { startTs := d.globalTs, status := .active, writes := [], heldKeys := fun _ => false } with
    nextTxnId := d.nextTxnId + 1
    globalTs := d.globalTs + 1
    driver := update d.driver d.nextTxnId (some th) }

/-- The critical section of `get_or_create_key` once it has found `idx`. -/
def openKey (d : Store) (k : CString) (idx : Slot) : Store :=
  if d.keys idx = none then
    { d with
      keys := useSlot d.keys k idx
      value := update d.value idx CBuf.empty
      owner := update d.owner idx 0
      waiting := update d.waiting idx [] }
  else d

def setOwner (d : Store) (idx : Slot) (t : Nat) : Store :=
  { d with owner := update d.owner idx t }

def setHeld (d : Store) (t : Nat) (T : Transaction) (idx : Slot) (b : Bool) : Store :=
  d.setTxn t { T with heldKeys := update T.heldKeys idx b }

/-- `add_wait_edge` and `remove_wait_edge` -/
def setEdge (d : Store) (waiter owner : Nat) (b : Bool) : Store :=
  if waiter = 0 ∨ owner = 0 then d
  else
    { d with
      waitFor := update d.waitFor waiter (update (d.waitFor waiter) owner b) }

/-- The loops over `wait_for` in `abort_txn`. -/
def clearEdges (d : Store) (t : Nat) : Store :=
  { d with
    waitFor := fun i j =>
      if (j = t ∧ 1 ≤ i ∧ i < d.nextTxnId) ∨ (i = t ∧ 1 ≤ j ∧ j < d.nextTxnId) then false
      else d.waitFor i j }

def startTs (d : Store) (t : Nat) : Option Nat :=
  (d.txns t).map Transaction.startTs

/-- `detect_cycle_and_pick_victim` -/
def detect (d : Store) : Option Nat :=
  detectCycleAndPickVictim d.waitFor d.startTs d.nextTxnId

def enterWait (d : Store) (idx : Slot) (th : Nat) : Store :=
  { d with waiting := update d.waiting idx (th :: d.waiting idx) }

def leaveWait (d : Store) (idx : Slot) (th : Nat) : Store :=
  { d with waiting := update d.waiting idx ((d.waiting idx).filter (· ≠ th)) }

/-- `lk->owner_txn = 0` and `pthread_cond_broadcast`, if the owner is `t`. -/
def release (d : Store) (idx : Slot) (t : Nat) : Store :=
  if d.owner idx = t then
    { d with
      owner := update d.owner idx 0
      waiting := update d.waiting idx [] }
  else d

def insert (d : Store) (t : Nat) (T : Transaction) (idx : Slot) (value : CString) : Store :=
  d.setTxn t { T with writes := putWrite T.writes idx (CBuf.copy value) }

def freeWrites (d : Store) (t : Nat) (T : Transaction) : Store :=
  d.setTxn t { T with writes := [] }

def setStatus (d : Store) (t : Nat) (T : Transaction) (status : TxnStatus) : Store :=
  d.setTxn t { T with status := status }

/-- The commit of `t` counts from here on. -/
def logCommit (d : Store) (t : Nat) (T : Transaction) : Store :=
  { d with
    log := ⟨t, T.writes⟩ :: d.log
    copying := update d.copying t false }

def beginCopy (d : Store) (t : Nat) : Store :=
  { d with copying := update d.copying t true }

/-- `strncpy(store[w->key_idx].value, w->value, MAX_VALUE_LEN-1)` -/
def copyEntry (d : Store) (w : WriteEntry) : Store :=
  { d with value := update d.value w.keyIdx (CBuf.copy w.value.str) }

end Store

/-! ## Program -/

inductive Mutex
  | key (idx : Slot)
  | txn (id : Nat)
  deriving DecidableEq

inductive Call
  | createTxn
  | txnWrite (t : Nat) (key value : CString)
  | txnCommit (t : Nat)
  | abortTxn (t : Nat)
  | spuriousWakeup

structure Request where
  txn : Nat
  idx : Slot
  value : CString
  deriving DecidableEq

/-- Who runs `release_all_locks` or `abort_txn`: a commit, an abort that the caller asked for, or
the abort of a deadlock victim inside `acquire_key_lock`. -/
inductive Caller
  | commit
  | plain
  | victim (r : Request) (owner : Nat)
  deriving DecidableEq

inductive Pc
  | idle
  -- `txn_write` and `acquire_key_lock`; `owner` is the local variable of that name
  | openKey (t : Nat) (key value : CString)
  | acquireLock (r : Request)
  | checkStatus (r : Request)
  | checkOwner (r : Request)
  | setHeld (r : Request)
  | acquired (r : Request)
  | refused (r : Request)
  | addEdge (r : Request) (owner : Nat)
  | detect (r : Request) (owner : Nat)
  | selfRemoveEdge (r : Request) (owner : Nat)
  | selfUnlock (r : Request)
  | waitCheck (r : Request) (owner : Nat)
  | waitUnlock (r : Request) (owner : Nat)
  | waiting (r : Request) (owner : Nat)
  | relock (r : Request) (owner : Nat)
  | removeEdge (r : Request) (owner : Nat)
  | insert (r : Request)
  -- `abort_txn`
  | abortLock (v : Nat) (caller : Caller)
  | abortCheck (v : Nat) (caller : Caller)
  | clearEdges (v : Nat) (caller : Caller)
  | freeWrites (v : Nat) (caller : Caller)
  -- `release_all_locks`
  | releaseCheck (v i : Nat) (caller : Caller)
  | releaseLock (v : Nat) (k : Slot) (caller : Caller)
  | releaseOwner (v : Nat) (k : Slot) (caller : Caller)
  | releaseUnlock (v : Nat) (k : Slot) (caller : Caller)
  | releaseClear (v : Nat) (k : Slot) (caller : Caller)
  -- `txn_commit`
  | commitLock (t : Nat)
  | commitCheck (t : Nat)
  | copy (t : Nat) (rest : List WriteEntry)
  | setCommitted (t : Nat)
  -- the last statement of `abort_txn` and `txn_commit`
  | txnUnlock (v : Nat) (caller : Caller)
  deriving DecidableEq

/-- What follows `release_all_locks`. -/
def Caller.released (v : Nat) : Caller → Pc
  | .commit => .setCommitted v
  | caller => .txnUnlock v caller

/-- What follows the return of `txn_commit` or `abort_txn`. -/
def Caller.returned : Caller → Pc
  | .victim r owner => .removeEdge r owner
  | _ => .idle

def enter (d : Store) (th : Nat) : Call → Option (Store × Pc)
  | .createTxn => some (if d.nextTxnId ≥ MAX_TXNS then d else d.create th, .idle)
  | .txnWrite t key value =>
    if d.driver t = some th then
      (d.txns t).map fun T => (d, if T.status = .active then .openKey t key value else .idle)
    else none
  | .txnCommit t => if d.driver t = some th then some (d, .commitLock t) else none
  | .abortTxn t => (d.txns t).map fun _ => (d, .abortLock t .plain)
  | .spuriousWakeup => none

/-- The decision after `detect_cycle_and_pick_victim`. -/
def afterDetect (d : Store) (r : Request) (owner : Nat) : Pc :=
  match d.detect with
  | none => .waitCheck r owner
  | some victim =>
    if victim = r.txn then .selfRemoveEdge r owner
    else if d.txns victim = none then .waitCheck r owner
    else .abortLock victim (.victim r owner)

def code : Pc → Instr Mutex Store Pc Call
  | .idle => .act fun th call _ d => enter d th call
  -- a full store ends the process, so the step has no successor
  | .openKey t key value => .act fun _ _ _ d => (keySlot d.keys key).map fun idx =>
    (d.openKey key idx, .acquireLock ⟨t, idx, value⟩)
  | .acquireLock r => .lock (.key r.idx) noMark (.checkStatus r)
  | .checkStatus r => .act fun _ _ _ d => (d.txns r.txn).map fun T =>
    (d, if T.status = .active then .checkOwner r else .refused r)
  | .checkOwner r => .act fun _ _ _ d =>
    some (if d.owner r.idx = 0 then (d.setOwner r.idx r.txn, .setHeld r)
      else if d.owner r.idx = r.txn then (d, .acquired r)
      else (d, .addEdge r (d.owner r.idx)))
  | .setHeld r => .act fun _ _ _ d => (d.txns r.txn).map fun T =>
    (d.setHeld r.txn T r.idx true, .acquired r)
  | .acquired r => .unlock (.key r.idx) (.insert r)
  | .refused r => .unlock (.key r.idx) .idle
  | .addEdge r owner => .act fun _ _ _ d => some (d.setEdge r.txn owner true, .detect r owner)
  | .detect r owner => .act fun _ _ _ d => some (d, afterDetect d r owner)
  | .selfRemoveEdge r owner => .act fun _ _ _ d => some (d.setEdge r.txn owner false, .selfUnlock r)
  | .selfUnlock r => .unlock (.key r.idx) (.abortLock r.txn .plain)
  | .waitCheck r owner => .act fun th _ _ d => (d.txns r.txn).map fun T =>
    if d.owner r.idx ≠ 0 ∧ d.owner r.idx ≠ r.txn ∧ T.status = .active then
      (d.enterWait r.idx th, .waitUnlock r owner)
    else (d, .removeEdge r owner)
  | .waitUnlock r owner => .unlock (.key r.idx) (.waiting r owner)
  | .waiting r owner => .act fun th call _ d =>
    if th ∈ d.waiting r.idx then
      match call with
      | .spuriousWakeup => some (d.leaveWait r.idx th, .relock r owner)
      | _ => none
    else some (d, .relock r owner)
  | .relock r owner => .lock (.key r.idx) noMark (.waitCheck r owner)
  | .removeEdge r owner => .act fun _ _ _ d => some (d.setEdge r.txn owner false, .checkStatus r)
  | .insert r => .act fun _ _ _ d => (d.txns r.txn).map fun T =>
    (d.insert r.txn T r.idx r.value, .idle)
  -- abort_txn
  | .abortLock v caller => .lock (.txn v) noMark (.abortCheck v caller)
  | .abortCheck v caller => .act fun _ _ _ d => (d.txns v).map fun T =>
    if T.status = .active then (d.setStatus v T .aborted, .clearEdges v caller)
    else (d, .txnUnlock v caller)
  | .clearEdges v caller => .act fun _ _ _ d => some (d.clearEdges v, .freeWrites v caller)
  | .freeWrites v caller => .act fun _ _ _ d => (d.txns v).map fun T =>
    (d.freeWrites v T, .releaseCheck v 0 caller)
  -- release_all_locks
  | .releaseCheck v i caller => .act fun _ _ _ d =>
    if h : i < MAX_KEYS then (d.txns v).map fun T =>
      (d, if T.heldKeys ⟨i, h⟩ then .releaseLock v ⟨i, h⟩ caller
        else .releaseCheck v (i + 1) caller)
    else some (d, caller.released v)
  | .releaseLock v k caller => .lock (.key k) noMark (.releaseOwner v k caller)
  | .releaseOwner v k caller => .act fun _ _ _ d => some (d.release k v, .releaseUnlock v k caller)
  | .releaseUnlock v k caller => .unlock (.key k) (.releaseClear v k caller)
  | .releaseClear v k caller => .act fun _ _ _ d => (d.txns v).map fun T =>
    (d.setHeld v T k false, .releaseCheck v (k + 1) caller)
  -- txn_commit
  | .commitLock t => .lock (.txn t) noMark (.commitCheck t)
  | .commitCheck t => .act fun _ _ _ d => (d.txns t).map fun T =>
    if T.status ≠ .active then (d, .txnUnlock t .commit)
    else if T.writes = [] then (d.logCommit t T, .copy t [])
    else (d.beginCopy t, .copy t T.writes)
  | .copy t (w :: rest) => .act fun _ _ _ d => (d.txns t).map fun T =>
    (if rest = [] then (d.copyEntry w).logCommit t T else d.copyEntry w, .copy t rest)
  | .copy t [] => .act fun _ _ _ d => (d.txns t).map fun T =>
    (d.freeWrites t T, .releaseCheck t 0 .commit)
  | .setCommitted t => .act fun _ _ _ d => (d.txns t).map fun T =>
    (d.setStatus t T .committed, .txnUnlock t .commit)
  | .txnUnlock v caller => .unlock (.txn v) caller.returned

def init : Config Mutex Store Pc := Config.start initialStore .idle

/-! ## What the instructions do -/

open Option

inductive Locks : Pc → Mutex → Pc → Prop
  | acquire (r) : Locks (.acquireLock r) (.key r.idx) (.checkStatus r)
  | relock (r owner) : Locks (.relock r owner) (.key r.idx) (.waitCheck r owner)
  | abort (v caller) : Locks (.abortLock v caller) (.txn v) (.abortCheck v caller)
  | release (v k caller) : Locks (.releaseLock v k caller) (.key k) (.releaseOwner v k caller)
  | commit (t) : Locks (.commitLock t) (.txn t) (.commitCheck t)

variable {p p' : Pc} {m : Mutex} {th : Nat} {d d' : Store}

theorem locks_of_code {next : Pc} {mark : Nat → Store → Store}
    (h : code p = .lock m mark next) : mark = noMark ∧ Locks p m next := by
  cases p with
  | copy t rest => cases rest <;> cases h
  | _ => cases h <;> exact ⟨rfl, by constructor⟩

inductive Unlocks : Pc → Mutex → Pc → Prop
  | acquired (r) : Unlocks (.acquired r) (.key r.idx) (.insert r)
  | refused (r) : Unlocks (.refused r) (.key r.idx) .idle
  | self (r) : Unlocks (.selfUnlock r) (.key r.idx) (.abortLock r.txn .plain)
  | wait (r owner) : Unlocks (.waitUnlock r owner) (.key r.idx) (.waiting r owner)
  | release (v k caller) : Unlocks (.releaseUnlock v k caller) (.key k) (.releaseClear v k caller)
  | txn (v caller) : Unlocks (.txnUnlock v caller) (.txn v) caller.returned

theorem unlocks_of_code {next : Pc} (h : code p = .unlock m next) : Unlocks p m next := by
  cases p with
  | copy t rest => cases rest <;> cases h
  | _ => cases h <;> constructor

inductive Acts (th : Nat) (d : Store) : Pc → Store → Pc → Prop
  | createFull : Acts th d .idle d .idle
  | create : Acts th d .idle (d.create th) .idle
  | callWrite (t key value) (hdriver : d.driver t = some th) :
      Acts th d .idle d (.openKey t key value)
  | callCommit (t) (hdriver : d.driver t = some th) : Acts th d .idle d (.commitLock t)
  | callAbort (t) (h : d.txns t ≠ none) : Acts th d .idle d (.abortLock t .plain)
  | openKey (t key value idx) :
      Acts th d (.openKey t key value) (d.openKey key idx) (.acquireLock ⟨t, idx, value⟩)
  | statusActive (r) : Acts th d (.checkStatus r) d (.checkOwner r)
  | statusInactive (r) : Acts th d (.checkStatus r) d (.refused r)
  | take (r : Request) (h : d.owner r.idx = 0) :
      Acts th d (.checkOwner r) (d.setOwner r.idx r.txn) (.setHeld r)
  | mine (r : Request) (h : d.owner r.idx = r.txn) : Acts th d (.checkOwner r) d (.acquired r)
  | other (r : Request) (hzero : d.owner r.idx ≠ 0) :
      Acts th d (.checkOwner r) d (.addEdge r (d.owner r.idx))
  | setHeld (r : Request) (T) (hT : d.txns r.txn = some T) :
      Acts th d (.setHeld r) (d.setHeld r.txn T r.idx true) (.acquired r)
  | addEdge (r owner) : Acts th d (.addEdge r owner) (d.setEdge r.txn owner true) (.detect r owner)
  | noCycle (r owner) (h : ∀ v, d.detect = some v → d.txns v = none) :
      Acts th d (.detect r owner) d (.waitCheck r owner)
  | selfVictim (r owner) : Acts th d (.detect r owner) d (.selfRemoveEdge r owner)
  | victim (r owner v) (h : d.txns v ≠ none) :
      Acts th d (.detect r owner) d (.abortLock v (.victim r owner))
  | selfRemoveEdge (r owner) :
      Acts th d (.selfRemoveEdge r owner) (d.setEdge r.txn owner false) (.selfUnlock r)
  | sleep (r : Request) (owner T) (hT : d.txns r.txn = some T)
      (h : d.owner r.idx ≠ 0 ∧ d.owner r.idx ≠ r.txn ∧ T.status = .active) :
      Acts th d (.waitCheck r owner) (d.enterWait r.idx th) (.waitUnlock r owner)
  | noSleep (r owner) : Acts th d (.waitCheck r owner) d (.removeEdge r owner)
  | woken (r owner) : Acts th d (.waiting r owner) d (.relock r owner)
  | spurious (r owner) : Acts th d (.waiting r owner) (d.leaveWait r.idx th) (.relock r owner)
  | removeEdge (r owner) :
      Acts th d (.removeEdge r owner) (d.setEdge r.txn owner false) (.checkStatus r)
  | insert (r : Request) (T) (hT : d.txns r.txn = some T) :
      Acts th d (.insert r) (d.insert r.txn T r.idx r.value) .idle
  | abort (v caller T) (hT : d.txns v = some T) (hactive : T.status = .active) :
      Acts th d (.abortCheck v caller) (d.setStatus v T .aborted) (.clearEdges v caller)
  | abortRefused (v caller T) (hT : d.txns v = some T) (hne : T.status ≠ .active) :
      Acts th d (.abortCheck v caller) d (.txnUnlock v caller)
  | clearEdges (v caller) : Acts th d (.clearEdges v caller) (d.clearEdges v) (.freeWrites v caller)
  | freeWrites (v caller T) (hT : d.txns v = some T) :
      Acts th d (.freeWrites v caller) (d.freeWrites v T) (.releaseCheck v 0 caller)
  | releaseHeld (v k caller T) (hT : d.txns v = some T) (hheld : T.heldKeys k = true) :
      Acts th d (.releaseCheck v k caller) d (.releaseLock v k caller)
  | releaseSkip (v i caller) :
      Acts th d (.releaseCheck v i caller) d (.releaseCheck v (i + 1) caller)
  | releaseEnd (v i caller) : Acts th d (.releaseCheck v i caller) d (caller.released v)
  | releaseOwner (v k caller) :
      Acts th d (.releaseOwner v k caller) (d.release k v) (.releaseUnlock v k caller)
  | releaseClear (v k caller T) (hT : d.txns v = some T) :
      Acts th d (.releaseClear v k caller) (d.setHeld v T k false) (.releaseCheck v (k + 1) caller)
  | commitRefused (t T) (hT : d.txns t = some T) (hne : T.status ≠ .active) :
      Acts th d (.commitCheck t) d (.txnUnlock t .commit)
  | commitEmpty (t T) (hT : d.txns t = some T) (hactive : T.status = .active) (hw : T.writes = []) :
      Acts th d (.commitCheck t) (d.logCommit t T) (.copy t [])
  | commitBegin (t T) (hT : d.txns t = some T) (hactive : T.status = .active) (hw : T.writes ≠ []) :
      Acts th d (.commitCheck t) (d.beginCopy t) (.copy t T.writes)
  | copyMore (t w x rest) :
      Acts th d (.copy t (w :: x :: rest)) (d.copyEntry w) (.copy t (x :: rest))
  | copyLast (t w T) (hT : d.txns t = some T) :
      Acts th d (.copy t [w]) ((d.copyEntry w).logCommit t T) (.copy t [])
  | copied (t T) (hT : d.txns t = some T) :
      Acts th d (.copy t []) (d.freeWrites t T) (.releaseCheck t 0 .commit)
  | setCommitted (t T) (hT : d.txns t = some T) :
      Acts th d (.setCommitted t) (d.setStatus t T .committed) (.txnUnlock t .commit)

theorem acts_of_enter {call : Call} (h : enter d th call = some (d', p')) :
    Acts th d .idle d' p' := by
  cases call with
  | createTxn =>
    rcases h with ⟨rfl, rfl⟩
    split
    · exact Acts.createFull
    · exact Acts.create
  | txnWrite t key value =>
    simp only [enter, ite_none_right_eq_some, map_eq_some_iff] at h
    rcases h with ⟨hdriver, T, -, rfl, rfl⟩
    split
    · exact .callWrite t key value hdriver
    · exact Acts.createFull
  | txnCommit t =>
    simp only [enter, ite_none_right_eq_some] at h
    rcases h with ⟨hdriver, rfl, rfl⟩
    exact .callCommit t hdriver
  | abortTxn t =>
    simp only [enter, map_eq_some_iff] at h
    rcases h with ⟨T, hT, rfl, rfl⟩
    exact .callAbort t (by simp [hT])
  | spuriousWakeup => cases h

theorem acts_of_detect (r : Request) (owner : Nat) :
    Acts th d (.detect r owner) d (afterDetect d r owner) := by
  unfold afterDetect
  split
  · rename_i hnone
    exact .noCycle r owner (by simp [hnone])
  · rename_i v hv
    split_ifs with hself hknown
    · exact .selfVictim r owner
    · exact .noCycle r owner (by simp [hv, hknown])
    · exact .victim r owner v hknown

theorem acts_of_code {i : Call} {own : Mutex → Option Nat}
    {f : Nat → Call → (Mutex → Option Nat) → Store → Option (Store × Pc)}
    (hc : code p = .act f) (hf : f th i own d = some (d', p')) : Acts th d p d' p' := by
  cases p with
  | idle =>
    cases hc
    exact acts_of_enter hf
  | openKey t key value =>
    cases hc
    rcases map_eq_some_iff.1 hf with ⟨idx, -, ⟨⟩⟩
    exact .openKey t key value idx
  | checkStatus r =>
    cases hc
    rcases map_eq_some_iff.1 hf with ⟨T, -, ⟨⟩⟩
    split
    · exact .statusActive r
    · exact .statusInactive r
  | checkOwner r =>
    cases hc
    simp only [some.injEq] at hf
    split at hf
    · rename_i hzero
      cases hf
      exact .take r hzero
    · rename_i hzero
      split_ifs at hf with hmine
      · cases hf
        exact .mine r hmine
      · cases hf
        exact .other r hzero
  | setHeld r | insert r | freeWrites v caller | releaseClear v k caller | setCommitted t =>
    cases hc
    rcases map_eq_some_iff.1 hf with ⟨T, hT, ⟨⟩⟩
    constructor
    exact hT
  | addEdge r owner | selfRemoveEdge r owner | removeEdge r owner | clearEdges v caller
  | releaseOwner v k caller =>
    cases hc
    cases hf
    constructor
  | detect r owner =>
    cases hc
    cases hf
    exact acts_of_detect r owner
  | waitCheck r owner =>
    cases hc
    rcases map_eq_some_iff.1 hf with ⟨T, hT, hres⟩
    split_ifs at hres with h
    · cases hres
      exact .sleep r owner T hT h
    · cases hres
      exact .noSleep r owner
  | waiting r owner =>
    cases hc
    dsimp only at hf
    split at hf
    · split at hf
      · cases hf
        exact .spurious r owner
      · cases hf
    · cases hf
      exact .woken r owner
  | abortCheck v caller =>
    cases hc
    rcases map_eq_some_iff.1 hf with ⟨T, hT, hres⟩
    split_ifs at hres with h
    · cases hres
      exact .abort v caller T hT h
    · cases hres
      exact .abortRefused v caller T hT h
  | releaseCheck v i caller =>
    cases hc
    split_ifs at hf with hi
    · rcases map_eq_some_iff.1 hf with ⟨T, hT, ⟨⟩⟩
      split_ifs with hheld
      · exact .releaseHeld v ⟨i, hi⟩ caller T hT hheld
      · exact .releaseSkip v i caller
    · cases hf
      exact .releaseEnd v i caller
  | commitCheck t =>
    cases hc
    rcases map_eq_some_iff.1 hf with ⟨T, hT, hres⟩
    split at hres
    · rename_i hne
      cases hres
      exact .commitRefused t T hT hne
    · rename_i hne
      have hactive : T.status = .active := not_not.1 hne
      split_ifs at hres with h
      · cases hres
        exact .commitEmpty t T hT hactive h
      · cases hres
        exact .commitBegin t T hT hactive h
  | copy t rest =>
    cases rest with
    | nil =>
      cases hc
      rcases map_eq_some_iff.1 hf with ⟨T, hT, ⟨⟩⟩
      exact .copied t T hT
    | cons w rest =>
      cases hc
      rcases map_eq_some_iff.1 hf with ⟨T, hT, ⟨⟩⟩
      cases rest with
      | nil => exact .copyLast t w T hT
      | cons x rest => exact .copyMore t w x rest
  | _ => cases hc

end SystemsLab.LockStore
