import SystemsLab.CLib.CString
import SystemsLab.Concurrent.Program
import SystemsLab.Data.Heap
import SystemsLab.Data.KeyedList

/-!
# `Mutex-Spi-Sem-RWlock/concurrent_hashmap_using_locks.c`

A hash map of chains with one lock for each bucket, called by any number of threads.

* `HashMap` — the heads of the chains and the heap with their entries, with two ghost fields: the
  operations in the order in which they got the lock of their bucket, and the place of each thread's
  last one among them;
* `code` — `hashmap_insert` and `hashmap_lookup`; an access through a bad pointer leads to `crash`;
* `Contents` — what the chains hold if the operations of a log are carried out whole, in the order
  of the log.

The hint of an insertion stands for the choice of `malloc`, which does not run out of memory; `next`
of a new entry is not read before it is set.
-/

namespace SystemsLab.LockedMap

open Concurrent List

/-! ## Data -/

def NUM_BUCKETS : Nat := 16

structure Entry where
  key : CString
  value : Int
  next : Option Nat

def hash (key : CString) : Fin NUM_BUCKETS :=
  let h : UInt32 := key.bytes.foldl (fun h c => h * 31 + c.toUInt32) 0
  ⟨h.toNat % NUM_BUCKETS, Nat.mod_lt _ (by decide)⟩

/-- A call of `hashmap_insert` or `hashmap_lookup`. -/
inductive Op
  | insert (key : CString) (value : Int)
  | lookup (key : CString)
  deriving DecidableEq

def Op.key : Op → CString
  | .insert key _ | .lookup key => key

structure HashMap where
  head : Fin NUM_BUCKETS → Option Nat
  heap : Heap Entry
  /-- The operations in the order in which they got the lock of their bucket. -/
  log : List Op
  /-- The place of the last operation of a thread in the log. -/
  ticket : Nat → Nat

def hashmapInit : HashMap := ⟨fun _ => none, .empty, [], fun _ => 0⟩

/-- The thread gets the lock of a bucket for `op`. -/
def record (op : Op) (th : Nat) (map : HashMap) : HashMap :=
  { map with log := map.log ++ [op], ticket := Function.update map.ticket th map.log.length }

/-! ## Program -/

/-- The arguments of `hashmap_insert`. -/
structure Insertion where
  key : CString
  value : Int
  hint : Nat
  deriving DecidableEq

/-- What a thread does next. -/
inductive Call
  | insert (r : Insertion)
  | lookup (key : CString)

inductive Pc
  | idle
  -- hashmap_insert
  | insertLock (r : Insertion)
  | insertFirst (r : Insertion)
  | insertScan (r : Insertion) (e : Option Nat)
  | assign (r : Insertion) (e : Nat)
  | create (r : Insertion)
  | link (key : CString) (newE : Nat)
  | publish (key : CString) (newE : Nat)
  | insertUnlock (key : CString)
  -- hashmap_lookup; the result is `*out` if it returns 1
  | lookupLock (key : CString)
  | lookupFirst (key : CString)
  | lookupScan (key : CString) (e : Option Nat)
  | fetch (key : CString) (e : Nat)
  | lookupUnlock (key : CString) (result : Option Int)
  | lookupReturn (key : CString) (result : Option Int)
  -- an access through a bad pointer
  | crash
  deriving DecidableEq

def Call.enter : Call → Pc
  | .insert r => .insertLock r
  | .lookup key => .lookupLock key

/-- The end of an access through a pointer. -/
def orCrash (map : HashMap) (result : Option (HashMap × Pc)) : Option (HashMap × Pc) :=
  some (result.getD (map, .crash))

def code : Pc → Instr (Fin NUM_BUCKETS) HashMap Pc Call
  | .idle => .act fun _ call _ map => some (map, call.enter)
  -- hashmap_insert
  | .insertLock r => .lock (hash r.key) (record (.insert r.key r.value)) (.insertFirst r)
  | .insertFirst r => .act fun _ _ _ map => some (map, .insertScan r (map.head (hash r.key)))
  | .insertScan r none => .act fun _ _ _ map => some (map, .create r)
  | .insertScan r (some e) => .act fun _ _ _ map => orCrash map do
      let entry ← map.heap.cell e
      some (map, if entry.key = r.key then .assign r e else .insertScan r entry.next)
  | .assign r e => .act fun _ _ _ map => orCrash map do
      let heap ← map.heap.modify e fun entry => { entry with value := r.value }
      some ({ map with heap }, .insertUnlock r.key)
  -- `malloc`, `strdup` and the value; no other thread knows the address before `publish`
  | .create r => .act fun _ _ _ map =>
    some ({ map with heap := map.heap.alloc r.hint ⟨r.key, r.value, none⟩ },
      .link r.key (map.heap.freshAddr r.hint))
  | .link key newE => .act fun _ _ _ map => orCrash map do
      let heap ← map.heap.modify newE fun entry => { entry with next := map.head (hash key) }
      some ({ map with heap }, .publish key newE)
  | .publish key newE => .act fun _ _ _ map =>
    some ({ map with head := Function.update map.head (hash key) (some newE) }, .insertUnlock key)
  | .insertUnlock key => .unlock (hash key) .idle
  -- hashmap_lookup
  | .lookupLock key => .lock (hash key) (record (.lookup key)) (.lookupFirst key)
  | .lookupFirst key => .act fun _ _ _ map => some (map, .lookupScan key (map.head (hash key)))
  | .lookupScan key none => .act fun _ _ _ map => some (map, .lookupUnlock key none)
  | .lookupScan key (some e) => .act fun _ _ _ map => orCrash map do
      let entry ← map.heap.cell e
      some (map, if entry.key = key then .fetch key e else .lookupScan key entry.next)
  | .fetch key e => .act fun _ _ _ map => orCrash map do
      let entry ← map.heap.cell e
      some (map, .lookupUnlock key (some entry.value))
  | .lookupUnlock key result => .unlock (hash key) (.lookupReturn key result)
  | .lookupReturn _ _ => .act fun _ _ _ map => some (map, .idle)
  | .crash => .act fun _ _ _ _ => none

/-- After `hashmap_init`, before the threads call anything. -/
def init : Config (Fin NUM_BUCKETS) HashMap Pc := .start hashmapInit .idle

/-! ## The operations one after the other -/

open KeyedList Function

abbrev Contents := Fin NUM_BUCKETS → List (CString × Int)

/-- An operation carried out whole: an insertion sets the value of its key or puts it in front. -/
def apply (s : Contents) : Op → Contents
  | .insert key value => update s (hash key) (put key value (s (hash key)))
  | .lookup _ => s

def after (log : List Op) : Contents := log.foldl apply fun _ => []

/-- The value that an operation gives to a key. -/
def Op.valueFor (key : CString) : Op → Option Int
  | .insert k value => if k = key then some value else none
  | .lookup _ => none

def lastInsert (key : CString) (log : List Op) : Option Int :=
  log.reverse.findSome? (Op.valueFor key)

variable {s : Contents} {op op1 op2 : Op} {log : List Op} {key : CString} {i : Fin NUM_BUCKETS}

theorem after_concat : after (log ++ [op]) = apply (after log) op := by
  rw [after, foldl_append]
  rfl

theorem apply_of_ne (h : hash op.key ≠ i) : apply s op i = s i := by
  cases op with
  | insert k value => exact update_of_ne (Ne.symm h) ..
  | lookup k => rfl

theorem after_concat_of_ne (h : hash op.key ≠ i) : after (log ++ [op]) i = after log i := by
  rw [after_concat, apply_of_ne h]

theorem lastInsert_concat :
    lastInsert key (log ++ [op]) = (op.valueFor key).or (lastInsert key log) := by
  rw [lastInsert, reverse_append, reverse_singleton, singleton_append, findSome?_cons]
  cases op.valueFor key with
  | none => rfl
  | some value => rfl

theorem valueFor_of_ne (h : op.key ≠ key) : op.valueFor key = none := by
  cases op with
  | insert k value => exact if_neg h
  | lookup k => rfl

theorem lastInsert_concat_of_ne (h : op.key ≠ key) :
    lastInsert key (log ++ [op]) = lastInsert key log := by
  rw [lastInsert_concat, valueFor_of_ne h, Option.none_or]

theorem lookup_after (key : CString) (log : List Op) :
    (lookup Prod.fst key (after log (hash key))).map Prod.snd = lastInsert key log := by
  induction log using reverseRecOn with
  | nil => rfl
  | append_singleton log op ih =>
    by_cases hkey : op.key = key
    · cases op with
      | insert k value =>
        obtain rfl : k = key := hkey
        rw [after_concat, apply, update_self, lookup_put_self, lastInsert_concat,
          Op.valueFor, if_pos rfl]
        rfl
      | lookup k =>
        rw [after_concat, lastInsert_concat]
        exact ih
    · rw [lastInsert_concat_of_ne hkey, ← ih, after_concat]
      cases op with
      | insert k value =>
        -- another key of the same chain, or another chain
        have hne : key ≠ k := Ne.symm hkey
        by_cases hhash : hash (Op.insert k value).key = hash key
        · have hhash' : hash k = hash key := hhash
          rw [apply, hhash', update_self, lookup_put_of_ne hne]
        · rw [apply_of_ne hhash]
      | lookup k => rfl

theorem apply_comm (h : hash op1.key ≠ hash op2.key) :
    apply (apply s op1) op2 = apply (apply s op2) op1 := by
  cases op1 with
  | lookup k1 => rfl
  | insert k1 v1 =>
    cases op2 with
    | lookup k2 => rfl
    | insert k2 v2 =>
      have hne : hash k1 ≠ hash k2 := h
      simp only [apply, update_of_ne hne, update_of_ne (Ne.symm hne)]
      exact update_comm hne ..

theorem after_swap (h : hash op1.key ≠ hash op2.key) (before rest : List Op) :
    after (before ++ op1 :: op2 :: rest) = after (before ++ op2 :: op1 :: rest) := by
  simp [after, apply_comm h]

end SystemsLab.LockedMap
