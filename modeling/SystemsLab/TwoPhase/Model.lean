import Mathlib.Data.Fintype.BigOperators
import SystemsLab.Concurrent.Outline

/-!
# The bank of `2pl.c`

`worker` threads run transfers between eight accounts.  `tx_transfer` locks the two records in
ascending order (growing), moves the money if the balance suffices, and unlocks in reverse order
(shrinking).

* `Bank` — the shared data, with two ghost lists: the transfers in the order in which they got
  their second lock, and the transfers whose `tx_commit` has ended;
* `code` — `worker` and `tx_transfer`, one instruction for each shared access;
* `txTransfer` — the same transfer run alone.

The accounts are `int` in the source.  The balances stay between `0` and the total (`Serial.lean`),
so `Int` computes the same values.
-/

namespace SystemsLab.TwoPhase

open Concurrent

/-! ## Data -/

abbrev numberOfAccounts : Nat := 8
def initialBalance : Int := 1000

abbrev Account := Fin numberOfAccounts

/-- One call `tx_transfer(from, to, amount)`; `worker` draws amounts from `1` on. -/
structure Transfer where
  fromAcc : Account
  toAcc : Account
  amount : Int
  pos : 1 ≤ amount
  deriving DecidableEq

namespace Transfer

/-- `a` of `tx_transfer`, after the swap. -/
def first (t : Transfer) : Account :=
  if t.fromAcc > t.toAcc then t.toAcc else t.fromAcc

/-- `b` of `tx_transfer`, after the swap. -/
def second (t : Transfer) : Account :=
  if t.fromAcc > t.toAcc then t.fromAcc else t.toAcc

end Transfer

structure Bank where
  accounts : Account → Int
  order : List (Nat × Transfer)
  completed : List (Nat × Transfer)

def totalBalance (accounts : Account → Int) : Int :=
  ∑ id, accounts id

def initialAccounts : Account → Int := fun _ => initialBalance

def initialBank : Bank :=
  { accounts := initialAccounts
    order := []
    completed := [] }

namespace Bank

def setAccount (d : Bank) (id : Account) (v : Int) : Bank :=
  { d with accounts := Function.update d.accounts id v }

def acquired (d : Bank) (th : Nat) (t : Transfer) : Bank :=
  { d with order := d.order ++ [(th, t)] }

def finished (d : Bank) (th : Nat) (t : Transfer) : Bank :=
  { d with completed := d.completed ++ [(th, t)] }

end Bank

/-! ## Program -/

inductive Mutex
  | record (id : Account)
  | print
  deriving DecidableEq

/-- What a thread gets from outside: the transfer `worker` draws, and whether `rnd(0, 999)` is `0`
at the end of `tx_transfer`. -/
structure Input where
  transfer : Transfer
  print : Bool

/-- Program points.  `ids` is `locked_ids[0 .. locked_count - 1]`, the last entry first. -/
inductive Pc
  | worker
  | growFirst (t : Transfer) (ids : List Account)
  | lockFirst (t : Transfer) (ids : List Account)
  | growSecond (t : Transfer) (ids : List Account)
  | lockSecond (t : Transfer) (ids : List Account)
  | check (t : Transfer) (ids : List Account)
  | debit (t : Transfer) (ids : List Account)
  | credit (t : Transfer) (ids : List Account)
  | commit (t : Transfer) (ids : List Account)
  | printLock
  | printing
  | printUnlock
  deriving DecidableEq

/-- The scan of `tx_lock_record`: a record that is in `locked_ids` is not locked again. -/
def txLockRecord (ids : List Account) (id : Account) (held lock : Pc) : Pc :=
  if id ∈ ids then held else lock

/-- `worker` draws a transfer, `tx_begin` empties `locked_ids`; equal accounts return at once. -/
def workerStep (th : Nat) (t : Transfer) (d : Bank) : Bank × Pc :=
  if t.fromAcc = t.toAcc then (d.finished th t, .worker) else (d, .growFirst t [])

def code : Pc → Instr Mutex Bank Pc Input
  | .worker => .act fun th i _ d => some (workerStep th i.transfer d)
  -- growing
  | .growFirst t ids => .act fun _ _ _ d =>
    some (d, txLockRecord ids t.first (.growSecond t ids) (.lockFirst t ids))
  | .lockFirst t ids => .lock (.record t.first) noMark (.growSecond t (t.first :: ids))
  | .growSecond t ids => .act fun _ _ _ d =>
    some (d, txLockRecord ids t.second (.check t ids) (.lockSecond t ids))
  | .lockSecond t ids =>
    .lock (.record t.second) (fun th d => d.acquired th t) (.check t (t.second :: ids))
  -- the transfer
  | .check t ids => .act fun _ _ _ d =>
    some (d, if d.accounts t.fromAcc ≥ t.amount then .debit t ids else .commit t ids)
  | .debit t ids => .act fun _ _ _ d =>
    some (d.setAccount t.fromAcc (d.accounts t.fromAcc - t.amount), .credit t ids)
  | .credit t ids => .act fun _ _ _ d =>
    some (d.setAccount t.toAcc (d.accounts t.toAcc + t.amount), .commit t ids)
  -- shrinking: `tx_commit` unlocks from the last entry to the first
  | .commit t (id :: ids) => .unlock (.record id) (.commit t ids)
  | .commit t [] => .act fun th i _ d =>
    some (d.finished th t, if i.print then .printLock else .worker)
  | .printLock => .lock .print noMark .printing
  | .printing => .act fun _ _ _ d => some (d, .printUnlock)
  | .printUnlock => .unlock .print .worker

def init : Config Mutex Bank Pc := Config.start initialBank .worker

/-! ## The transfer run alone -/

/-- `tx_transfer` with no other thread running. -/
def txTransfer (accounts : Account → Int) (t : Transfer) : Account → Int :=
  if t.fromAcc = t.toAcc then
    accounts
  else if accounts t.fromAcc ≥ t.amount then
    let debited := Function.update accounts t.fromAcc (accounts t.fromAcc - t.amount)
    Function.update debited t.toAcc (debited t.toAcc + t.amount)
  else
    accounts

/-- The accounts after the transfers of `order`, one after the other. -/
def serial (order : List (Nat × Transfer)) : Account → Int :=
  order.foldl (fun accounts e => txTransfer accounts e.2) initialAccounts

end SystemsLab.TwoPhase
