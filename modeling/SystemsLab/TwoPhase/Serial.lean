import Mathlib.Algebra.Order.BigOperators.Group.Finset
import SystemsLab.TwoPhase.Model

/-!
# The bank's runs are serial

The proof outline of `2pl.c`: while `record_lock[id]` is free, `accounts[id]` is the balance that
the transfers have given it in the order of their second locks; a thread that holds the lock owes
the rest of its own transfer.
-/

namespace SystemsLab.TwoPhase

open Concurrent Function Finset

/-! ## The transfer run alone -/

namespace Transfer

theorem mem_records_iff (t : Transfer) (id : Account) :
    (id = t.second ∨ id = t.first) ↔ (id = t.fromAcc ∨ id = t.toAcc) := by
  unfold first second
  split
  · exact Iff.rfl
  · exact or_comm

theorem first_lt_second {t : Transfer} (h : t.fromAcc ≠ t.toAcc) : t.first < t.second := by
  unfold first second
  split_ifs with hle
  · assumption
  · exact lt_of_le_of_ne (not_lt.1 hle) h

end Transfer

variable {accounts : Account → Int} {t : Transfer} {id : Account} {th u : Nat} {p p' next : Pc}
  {m : Mutex} {mark : Nat → Bank → Bank} {d d' : Bank} {c : Config Mutex Bank Pc}

theorem txTransfer_of_ne (hfrom : id ≠ t.fromAcc) (hto : id ≠ t.toAcc) :
    txTransfer accounts t id = accounts id := by
  unfold txTransfer
  split
  · rfl
  · split
    · simp [hfrom, hto]
    · rfl

theorem txTransfer_congr {accounts' : Account → Int}
    (hfrom : accounts t.fromAcc = accounts' t.fromAcc) (hto : accounts t.toAcc = accounts' t.toAcc)
    (hid : id = t.fromAcc ∨ id = t.toAcc) :
    txTransfer accounts t id = txTransfer accounts' t id := by
  unfold txTransfer
  rw [hfrom]
  split
  · rcases hid with rfl | rfl
    · exact hfrom
    · exact hto
  · rename_i hne
    split
    · rcases hid with rfl | rfl
      · simp [hne]
      · simp [Ne.symm hne, hto]
    · rcases hid with rfl | rfl
      · exact hfrom
      · exact hto

theorem txTransfer_nonneg (h : ∀ id, 0 ≤ accounts id) (t : Transfer) (id : Account) :
    0 ≤ txTransfer accounts t id := by
  unfold txTransfer
  split
  · exact h id
  · split
    · have hpos := t.pos
      grind
    · exact h id

theorem totalBalance_update (accounts : Account → Int) (id : Account) (v : Int) :
    totalBalance (update accounts id v) = totalBalance accounts - accounts id + v := by
  unfold totalBalance
  rw [← add_sum_erase _ accounts (mem_univ id),
    ← add_sum_erase _ (update accounts id v) (mem_univ id)]
  have hrest : ∑ x ∈ univ.erase id, update accounts id v x = ∑ x ∈ univ.erase id, accounts x :=
    sum_congr rfl fun x hx => update_of_ne (ne_of_mem_erase hx) _ _
  rw [hrest, update_self]
  omega

theorem totalBalance_txTransfer (accounts : Account → Int) (t : Transfer) :
    totalBalance (txTransfer accounts t) = totalBalance accounts := by
  unfold txTransfer
  split
  · rfl
  · split
    · simp only [totalBalance_update]
      omega
    · rfl

/-! ## Serial runs -/

theorem serial_append (order : List (Nat × Transfer)) (th : Nat) (t : Transfer) :
    serial (order ++ [(th, t)]) = txTransfer (serial order) t := by
  simp [serial]

theorem serial_nonneg (order : List (Nat × Transfer)) : ∀ id, 0 ≤ serial order id := by
  induction order using List.reverseRecOn with
  | nil =>
    simp [serial, initialAccounts, initialBalance]
  | append_singleton order e ih =>
    intro id
    rcases e with ⟨th, t⟩
    rw [serial_append]
    exact txTransfer_nonneg ih t id

theorem totalBalance_serial (order : List (Nat × Transfer)) :
    totalBalance (serial order) = totalBalance initialAccounts := by
  induction order using List.reverseRecOn with
  | nil => rfl
  | append_singleton order e ih =>
    rw [serial_append, totalBalance_txTransfer, ih]

theorem serial_le_total (order : List (Nat × Transfer)) (id : Account) :
    serial order id ≤ totalBalance initialAccounts := by
  rw [← totalBalance_serial order]
  exact single_le_sum (fun x _ => serial_nonneg order x) (mem_univ id)

/-- A new entry changes the serial balance of its own two accounts only. -/
theorem serial_append_of_ne {order : List (Nat × Transfer)} (hfirst : id ≠ t.first)
    (hsecond : id ≠ t.second) :
    serial (order ++ [(th, t)]) id = serial order id := by
  have hnot : ¬ (id = t.fromAcc ∨ id = t.toAcc) := by
    rw [← t.mem_records_iff]
    simp [hfirst, hsecond]
  rw [serial_append]
  exact txTransfer_of_ne (fun h => hnot (.inl h)) (fun h => hnot (.inr h))

/-! ## What the instructions are -/

inductive Locks : Pc → Mutex → (Nat → Bank → Bank) → Pc → Prop
  | first (t ids) :
      Locks (.lockFirst t ids) (.record t.first) noMark (.growSecond t (t.first :: ids))
  | second (t ids) : Locks (.lockSecond t ids) (.record t.second) (fun th d => d.acquired th t)
        (.check t (t.second :: ids))
  | print : Locks .printLock .print noMark .printing

theorem locks_of_code (h : code p = .lock m mark next) : Locks p m mark next := by
  cases p with
  | lockFirst t ids | lockSecond t ids | printLock =>
    cases h
    constructor
  | commit t ids => cases ids <;> cases h
  | _ => cases h

inductive Unlocks : Pc → Mutex → Pc → Prop
  | commit (t id ids) : Unlocks (.commit t (id :: ids)) (.record id) (.commit t ids)
  | print : Unlocks .printUnlock .print .worker

theorem unlocks_of_code (h : code p = .unlock m next) : Unlocks p m next := by
  cases p with
  | commit t ids =>
    cases ids <;> cases h
    constructor
  | printUnlock =>
    cases h
    constructor
  | _ => cases h

/-- What the acts of `code` do, one constructor for each branch of the source. -/
inductive Acts (th : Nat) (d : Bank) : Pc → Bank → Pc → Prop
  | same (t : Transfer) (h : t.fromAcc = t.toAcc) : Acts th d .worker (d.finished th t) .worker
  | start (t : Transfer) (h : t.fromAcc ≠ t.toAcc) : Acts th d .worker d (.growFirst t [])
  | scanFirst (t ids) : Acts th d (.growFirst t ids) d
        (txLockRecord ids t.first (.growSecond t ids) (.lockFirst t ids))
  | scanSecond (t ids) : Acts th d (.growSecond t ids) d
        (txLockRecord ids t.second (.check t ids) (.lockSecond t ids))
  | enough (t : Transfer) (ids) (h : d.accounts t.fromAcc ≥ t.amount) :
      Acts th d (.check t ids) d (.debit t ids)
  | tooLittle (t : Transfer) (ids) (h : ¬ d.accounts t.fromAcc ≥ t.amount) :
      Acts th d (.check t ids) d (.commit t ids)
  | debit (t ids) :
      Acts th d (.debit t ids) (d.setAccount t.fromAcc (d.accounts t.fromAcc - t.amount))
        (.credit t ids)
  | credit (t ids) :
      Acts th d (.credit t ids) (d.setAccount t.toAcc (d.accounts t.toAcc + t.amount))
        (.commit t ids)
  | finish (t : Transfer) : Acts th d (.commit t []) (d.finished th t) .worker
  | finishPrint (t : Transfer) : Acts th d (.commit t []) (d.finished th t) .printLock
  | print : Acts th d .printing d .printUnlock

theorem acts_of_code {i : Input} {own : Mutex → Option Nat}
    {f : Nat → Input → (Mutex → Option Nat) → Bank → Option (Bank × Pc)}
    (hc : code p = .act f) (hf : f th i own d = some (d', p')) : Acts th d p d' p' := by
  cases p with
  | worker =>
    cases hc
    simp only [workerStep] at hf
    split at hf <;> cases hf
    · exact .same _ ‹_›
    · exact .start _ ‹_›
  | growFirst t ids | growSecond t ids | debit t ids | credit t ids | printing =>
    cases hc
    cases hf
    constructor
  | check t ids =>
    cases hc
    cases hf
    split
    · exact .enough t ids ‹_›
    · exact .tooLittle t ids ‹_›
  | commit t ids =>
    cases ids with
    | nil =>
      cases hc
      cases hf
      split <;> constructor
    | cons id ids => cases hc
  | _ => cases hc

/-! ## The outline -/

def ids : Pc → List Account
  | .growFirst _ ids | .lockFirst _ ids | .growSecond _ ids | .lockSecond _ ids | .check _ ids
  | .debit _ ids | .credit _ ids | .commit _ ids => ids
  | _ => []

def held : Pc → List Mutex
  | .printing | .printUnlock => [.print]
  | p => (ids p).map .record

/-- The balance is the serial one. -/
def Settled (d : Bank) (id : Account) : Prop :=
  d.accounts id = serial d.order id

/-- What a thread knows of the two records of its transfer. -/
def Local (d : Bank) : Pc → Prop
  | .growFirst t ids | .lockFirst t ids => t.fromAcc ≠ t.toAcc ∧ ids = []
  | .growSecond t ids | .lockSecond t ids =>
    t.fromAcc ≠ t.toAcc ∧ ids = [t.first] ∧ Settled d t.first
  -- the order already has the transfer, the accounts still lack it
  | .check t ids =>
    t.fromAcc ≠ t.toAcc ∧ ids = [t.second, t.first] ∧
      ∀ id ∈ ids, txTransfer d.accounts t id = serial d.order id
  | .debit t ids =>
    t.fromAcc ≠ t.toAcc ∧ ids = [t.second, t.first] ∧ d.accounts t.fromAcc ≥ t.amount ∧
      ∀ id ∈ ids, txTransfer d.accounts t id = serial d.order id
  | .credit t ids =>
    t.fromAcc ≠ t.toAcc ∧ ids = [t.second, t.first] ∧ Settled d t.fromAcc ∧
      d.accounts t.toAcc + t.amount = serial d.order t.toAcc
  | .commit t ids => t.fromAcc ≠ t.toAcc ∧ ids.Nodup ∧ ∀ id ∈ ids, Settled d id
  | _ => True

/-- The transfer that has its second lock and is not finished. -/
def inFlight (th : Nat) : Pc → List (Nat × Transfer)
  | .check t _ | .debit t _ | .credit t _ | .commit t _ => [(th, t)]
  | _ => []

/-- A thread's share of the order: what it has completed, then what it has under way. -/
def Logged (th : Nat) (d : Bank) (p : Pc) : Prop :=
  d.order.filter (fun e => e.1 = th) =
    d.completed.filter (fun e => e.1 = th ∧ e.2.fromAcc ≠ e.2.toAcc) ++ inFlight th p

theorem mem_held_record : Mutex.record id ∈ held p ↔ id ∈ ids p := by
  cases p <;> simp [held, ids]

theorem from_mem_records (t : Transfer) : t.fromAcc ∈ [t.second, t.first] := by
  simpa using (t.mem_records_iff t.fromAcc).2 (.inl rfl)

theorem to_mem_records (t : Transfer) : t.toAcc ∈ [t.second, t.first] := by
  simpa using (t.mem_records_iff t.toAcc).2 (.inr rfl)

theorem eq_from_or_to_of_mem (h : id ∈ [t.second, t.first]) : id = t.fromAcc ∨ id = t.toAcc :=
  (t.mem_records_iff id).1 (by simpa using h)

theorem Local.congr (hp : Local d p)
    (h : ∀ id ∈ ids p, d'.accounts id = d.accounts id ∧ serial d'.order id = serial d.order id) :
    Local d' p := by
  have settled : ∀ id ∈ ids p, Settled d id → Settled d' id := by
    intro id hid hs
    unfold Settled
    rwa [(h id hid).1, (h id hid).2]
  have owed : ∀ t : Transfer, ids p = [t.second, t.first] →
      (∀ id ∈ ids p, txTransfer d.accounts t id = serial d.order id) →
      ∀ id ∈ ids p, txTransfer d'.accounts t id = serial d'.order id := by
    intro t hids hd id hid
    have hfrom := (h t.fromAcc (hids ▸ from_mem_records t)).1
    have hto := (h t.toAcc (hids ▸ to_mem_records t)).1
    rw [txTransfer_congr hfrom hto (eq_from_or_to_of_mem (hids ▸ hid)), (h id hid).2]
    exact hd id hid
  cases p with
  | growSecond t ids | lockSecond t ids =>
    rcases hp with ⟨hne, rfl, hs⟩
    exact ⟨hne, rfl, settled _ (by simp [TwoPhase.ids]) hs⟩
  | check t ids =>
    rcases hp with ⟨hne, hids, hd⟩
    exact ⟨hne, hids, owed t hids hd⟩
  | debit t ids =>
    rcases hp with ⟨hne, hids, hge, hd⟩
    refine ⟨hne, hids, ?_, owed t hids hd⟩
    rwa [(h t.fromAcc (hids ▸ from_mem_records t)).1]
  | credit t ids =>
    rcases hp with ⟨hne, hids, hs, hd⟩
    refine ⟨hne, hids, settled _ (hids ▸ from_mem_records t) hs, ?_⟩
    have hto := h t.toAcc (hids ▸ to_mem_records t)
    rwa [hto.1, hto.2]
  | commit t ids =>
    rcases hp with ⟨hne, hnd, hs⟩
    exact ⟨hne, hnd, fun id hid => settled id hid (hs id hid)⟩
  | _ => exact hp

theorem Logged.acquired (hu : u ≠ th) (t : Transfer) (h : Logged u d p) :
    Logged u (d.acquired th t) p := by
  simpa [Logged, Bank.acquired, Ne.symm hu] using h

theorem Logged.finished (hu : u ≠ th) (t : Transfer) (h : Logged u d p) :
    Logged u (d.finished th t) p := by
  simpa [Logged, Bank.finished, Ne.symm hu] using h

/-! ## Acts -/

section

variable (h : Acts th d p d' p')

include h

/-- An act changes no balance outside the records that its thread holds, and no serial balance. -/
theorem Acts.frame (hp : Local d p) (hid : id ∉ ids p) :
    d'.accounts id = d.accounts id ∧ d'.order = d.order := by
  cases h with
  | debit t ids =>
    rcases hp with ⟨-, rfl, -⟩
    have hne : id ≠ t.fromAcc := fun e => hid (e ▸ from_mem_records t)
    exact ⟨update_of_ne hne _ _, rfl⟩
  | credit t ids =>
    rcases hp with ⟨-, rfl, -⟩
    have hne : id ≠ t.toAcc := fun e => hid (e ▸ to_mem_records t)
    exact ⟨update_of_ne hne _ _, rfl⟩
  | _ => exact ⟨rfl, rfl⟩

theorem Acts.held_eq : held p' = held p := by
  cases h with
  | scanFirst t ids | scanSecond t ids =>
    unfold txLockRecord
    split <;> rfl
  | _ => rfl

theorem Acts.nonneg (hp : Local d p) (hinv : ∀ id, 0 ≤ d.accounts id) :
    ∀ id, 0 ≤ d'.accounts id := by
  cases h with
  | debit t ids =>
    rcases hp with ⟨-, -, hge, -⟩
    exact (forall_update_iff _ fun _ v => 0 ≤ v).2 ⟨by omega, fun id _ => hinv id⟩
  | credit t ids =>
    have hpos := t.pos
    have hto := hinv t.toAcc
    exact (forall_update_iff _ fun _ v => 0 ≤ v).2 ⟨by omega, fun id _ => hinv id⟩
  | _ => exact hinv

/-- The acts of a thread keep its own knowledge: the transfer is applied to the accounts step by
step while the serial balances stand. -/
theorem Acts.local (hp : Local d p) : Local d' p' := by
  cases h with
  | start t h => exact ⟨h, rfl⟩
  | scanFirst t ids =>
    rcases hp with ⟨hne, rfl⟩
    exact ⟨hne, rfl⟩
  | scanSecond t ids =>
    rcases hp with ⟨hne, rfl, hs⟩
    have hmem : t.second ∉ [t.first] := by simpa using (Transfer.first_lt_second hne).ne'
    simpa [txLockRecord, hmem] using (show Local d (.lockSecond t [t.first]) from ⟨hne, rfl, hs⟩)
  | enough t ids h =>
    rcases hp with ⟨hne, hids, hd⟩
    exact ⟨hne, hids, h, hd⟩
  | tooLittle t ids h =>
    rcases hp with ⟨hne, rfl, hd⟩
    refine ⟨hne, ?_, ?_⟩
    · simpa using (Transfer.first_lt_second hne).ne'
    · intro id hid
      have := hd id hid
      simpa [Settled, txTransfer, h] using this
  | debit t ids =>
    rcases hp with ⟨hne, hids, hge, hd⟩
    have hfrom := hd t.fromAcc (hids ▸ from_mem_records t)
    have hto := hd t.toAcc (hids ▸ to_mem_records t)
    simp only [txTransfer, hne, hge] at hfrom hto
    refine ⟨hne, hids, ?_, ?_⟩
    · simpa [Settled, Bank.setAccount, hne] using hfrom
    · simpa [Bank.setAccount] using hto
  | credit t ids =>
    rcases hp with ⟨hne, rfl, hfrom, hto⟩
    refine ⟨hne, ?_, ?_⟩
    · simpa using (Transfer.first_lt_second hne).ne'
    · intro id hid
      rcases eq_from_or_to_of_mem hid with rfl | rfl
      · simpa [Settled, Bank.setAccount, hne] using hfrom
      · simpa [Settled, Bank.setAccount] using hto
  | _ => trivial

theorem Acts.logged (hp : Local d p) (hlog : Logged th d p) : Logged th d' p' := by
  cases h with
  | same t h => simpa [Logged, Bank.finished, h] using hlog
  | scanFirst t ids =>
    unfold txLockRecord
    split <;> exact hlog
  | scanSecond t ids =>
    rcases hp with ⟨hne, rfl, -⟩
    have hmem : t.second ∉ [t.first] := by simpa using (Transfer.first_lt_second hne).ne'
    simpa [txLockRecord, hmem] using (show Logged th d (.lockSecond t [t.first]) from hlog)
  | finish t | finishPrint t => simpa [Logged, Bank.finished, inFlight, hp.1] using hlog
  | _ => exact hlog

theorem Acts.logged_frame {q : Pc} (hu : u ≠ th) (hq : Logged u d q) : Logged u d' q := by
  cases h with
  | same t _ | finish t | finishPrint t => exact hq.finished hu t
  | _ => exact hq

end

/-! ## Locks -/

/-- With its second lock a thread owes exactly its own transfer. -/
theorem local_acquired {ids : List Account} (hp : Local d (.lockSecond t ids))
    (hres : Settled d t.second) :
    Local (d.acquired th t) (.check t (t.second :: ids)) := by
  rcases hp with ⟨hne, rfl, hfirst⟩
  have settled : ∀ id ∈ [t.second, t.first], Settled d id := by simp [hres, hfirst]
  refine ⟨hne, rfl, ?_⟩
  intro id hid
  have hfrom := settled _ (from_mem_records t)
  have hto := settled _ (to_mem_records t)
  calc
    txTransfer d.accounts t id = txTransfer (serial d.order) t id :=
      txTransfer_congr hfrom hto (eq_from_or_to_of_mem hid)
    _ = serial (d.acquired th t).order id := by rw [Bank.acquired, serial_append]

def Resource : Mutex → Bank → Prop
  | .record id, d => Settled d id
  | .print, _ => True

theorem lock_keeps_resource {m' : Mutex} (hc : code p = .lock m mark next)
    (hp : Local d p) (hm : m' ≠ m)
    (hheld : m' ∉ held p) (hres : Resource m' d) : Resource m' (mark th d) := by
  cases locks_of_code hc with
  | second t ids =>
    cases m' with
    | record id =>
      rcases hp with ⟨-, rfl, -⟩
      have hfirst : id ≠ t.first := by
        rw [mem_held_record] at hheld
        simpa [ids] using hheld
      have hsecond : id ≠ t.second := fun e => hm (e ▸ rfl)
      simpa [Resource, Settled, Bank.acquired, serial_append_of_ne hfirst hsecond] using hres
    | print => trivial
  | _ => exact hres

theorem lock_keeps_local {q : Pc} (hc : code p = .lock m mark next) (hp : Local d p) (hu : u ≠ th)
    (hm : m ∉ held q) (hdisj : ∀ m' ∈ held p, m' ∉ held q)
    (hq : Local d q ∧ Logged u d q) : Local (mark th d) q ∧ Logged u (mark th d) q := by
  cases locks_of_code hc with
  | second t ids =>
    rcases hp with ⟨-, rfl, -⟩
    refine ⟨hq.1.congr ?_, hq.2.acquired hu t⟩
    intro id hid
    have hfirst : id ≠ t.first := by
      rintro rfl
      exact hdisj (.record t.first) (by simp [held, ids]) (mem_held_record.2 hid)
    have hsecond : id ≠ t.second := by
      rintro rfl
      exact hm (mem_held_record.2 hid)
    exact ⟨rfl, serial_append_of_ne hfirst hsecond⟩
  | _ => exact hq

def outline : Outline code (fun _ _ _ _ => True) where
  held := held
  inv := fun d => ∀ id, 0 ≤ d.accounts id
  res := Resource
  loc := fun th d p => Local d p ∧ Logged th d p
  lock_loc hc hinv hp _ hres := by
    cases locks_of_code hc with
    | first t ids =>
      rcases hp with ⟨⟨hne, rfl⟩, hlog⟩
      exact ⟨hinv, ⟨hne, rfl, hres⟩, hlog⟩
    | second t ids =>
      refine ⟨hinv, local_acquired hp.1 hres, ?_⟩
      simpa [Logged, Bank.acquired, inFlight] using hp.2
    | print => exact ⟨hinv, trivial, hp.2⟩
  lock_held hc hp m' := by
    cases locks_of_code hc <;> simp [held, TwoPhase.ids]
  lock_res hc _ hp _ hm hheld hres := lock_keeps_resource hc hp.1 hm hheld hres
  lock_frame hc _ hp _ hu hm hdisj hq := lock_keeps_local hc hp.1 hu hm hdisj hq
  unlock_loc hc _ hp := by
    cases unlocks_of_code hc with
    | commit t id ids =>
      rcases hp with ⟨⟨hne, hnd, hs⟩, hlog⟩
      exact ⟨hs id (by simp), ⟨hne, hnd.of_cons, fun x hx => hs x (by simp [hx])⟩, hlog⟩
    | print => exact ⟨trivial, trivial, hp.2⟩
  unlock_held hc hp := by
    cases unlocks_of_code hc with
    | commit t id ids =>
      have hnot : id ∉ ids := (List.nodup_cons.1 hp.1.2.1).1
      refine ⟨by simp [held, TwoPhase.ids], ?_⟩
      intro m'
      simp only [held, TwoPhase.ids, List.map_cons, List.mem_cons, List.mem_map]
      grind
    | print => simp [held, TwoPhase.ids]
  act_loc hc _ hf hinv _ hp := by
    have h := acts_of_code hc hf
    exact ⟨h.nonneg hp.1 hinv, h.local hp.1, h.logged hp.1 hp.2⟩
  act_held hc hf hp m := by rw [(acts_of_code hc hf).held_eq]
  act_res := by
    intro th i own d p f d' p' m hc _ hf _ hp hm hres
    cases m with
    | record id =>
      rw [mem_held_record] at hm
      rcases (acts_of_code hc hf).frame hp.1 hm with ⟨hacc, hord⟩
      simpa [Resource, Settled, hacc, hord] using hres
    | print => trivial
  act_frame := by
    intro th i own d p f d' p' u q hc _ hf _ hp hu hdisj _ hq
    have h := acts_of_code hc hf
    refine ⟨hq.1.congr ?_, h.logged_frame hu hq.2⟩
    intro id hid
    have hnot : id ∉ ids p := fun hmem =>
      hdisj (.record id) (mem_held_record.2 hmem) (mem_held_record.2 hid)
    rcases h.frame hp.1 hnot with ⟨hacc, hord⟩
    exact ⟨hacc, by rw [hord]⟩

theorem outline_init : outline.Holds init :=
  Outline.Holds.start rfl (fun _ => by simp [initialBank, initialAccounts, initialBalance])
    (fun m => by cases m <;> simp [outline, Resource, Settled, initialBank, serial])
    (fun th => ⟨trivial, by simp [Logged, initialBank, inFlight]⟩)

theorem outline_run {as : List (Nat × Input)} (h : run code init as = some c) : outline.Holds c :=
  Outline.run_holds outline_init (meets_of_forall (fun _ _ _ _ => trivial) as init) h

/-! ## Serializability -/

/-- The transfer whose `tx_commit` has released its last lock and is about to return. -/
def released (th : Nat) : Pc → List (Nat × Transfer)
  | .commit t [] => [(th, t)]
  | _ => []

/-- A thread that holds no record has nothing in flight but a released transfer. -/
theorem inFlight_eq_released (hp : Local d p) (hids : ids p = []) (th : Nat) :
    inFlight th p = released th p := by
  cases p with
  | check t ids | debit t ids | credit t ids =>
    rcases hp with ⟨-, rfl, -⟩
    simp [TwoPhase.ids] at hids
  | commit t ids =>
    have : ids = [] := hids
    subst this
    rfl
  | _ => rfl

theorem ids_eq_nil_of_free (h : outline.Holds c)
    (hfree : ∀ id, c.owner (.record id) = none) (th : Nat) : ids (c.pc th) = [] := by
  refine List.eq_nil_iff_forall_not_mem.2 ?_
  intro id hid
  exact h.not_held_of_free (hfree id) th (mem_held_record.2 hid)

/-- In every state no account is negative; and while no transfer is between its lock and its
unlock, the accounts are those of the transfers run one after the other in the order of their
second locks, that order has exactly the transfers each thread has completed, and the total is the
initial one. -/
theorem bank_serializable (as : List (Nat × Input)) (c : Config Mutex Bank Pc)
    (h : run code init as = some c) :
    (∀ id, 0 ≤ c.data.accounts id) ∧ ((∀ id, c.owner (.record id) = none) →
      c.data.accounts = serial c.data.order ∧
      (∀ th, c.data.order.filter (fun e => e.1 = th) =
        c.data.completed.filter (fun e => e.1 = th ∧ e.2.fromAcc ≠ e.2.toAcc) ++
          released th (c.pc th)) ∧
      totalBalance c.data.accounts = totalBalance initialAccounts) := by
  have hO := outline_run h
  refine ⟨hO.inv, ?_⟩
  intro hfree
  have hserial : c.data.accounts = serial c.data.order := by
    funext id
    exact hO.res (.record id) (hfree id)
  refine ⟨hserial, ?_, ?_⟩
  · intro th
    rcases hO.loc th with ⟨hloc, hlog⟩
    rwa [← inFlight_eq_released hloc (ids_eq_nil_of_free hO hfree th) th]
  · rw [hserial]
    exact totalBalance_serial c.data.order

/-- A schedule of two threads whose transfers share account `1`: thread `0` moves `10` from `0` to
`1` while thread `1`, which moves `25` from `1` to `2`, waits for record `1`. -/
def sharedSchedule : List (Nat × Input) :=
  let a : Nat × Input := (0, ⟨⟨0, 1, 10, by decide⟩, false⟩)
  let b : Nat × Input := (1, ⟨⟨1, 2, 25, by decide⟩, false⟩)
  [a, b, a, b, a, a, a, a, a, a, a, b, b, b, b, b, b, a, a, b, b, b]

theorem bank_serializable_shared : ∃ c, run code init sharedSchedule = some c ∧
    (∀ id, c.owner (.record id) = none) ∧
      c.data.accounts = serial c.data.order ∧ c.data.accounts 1 = 985 := by
  refine ⟨_, rfl, ?_, ?_, ?_⟩
  · decide
  · exact ((bank_serializable sharedSchedule _ rfl).2 (by decide)).1
  · decide

/-! ## Bounds -/

theorem serial_pair_le_total (order : List (Nat × Transfer)) (hne : t.fromAcc ≠ t.toAcc) :
    serial order t.fromAcc + serial order t.toAcc ≤ totalBalance initialAccounts := by
  rw [← totalBalance_serial order, ← sum_pair hne]
  exact sum_le_univ_sum_of_nonneg (serial_nonneg order)

theorem txTransfer_pair (accounts : Account → Int) (hne : t.fromAcc ≠ t.toAcc) :
    txTransfer accounts t t.fromAcc + txTransfer accounts t t.toAcc =
      accounts t.fromAcc + accounts t.toAcc := by
  unfold txTransfer
  split
  · rfl
  · split
    · simp only [update_self, update_of_ne hne, update_of_ne (Ne.symm hne)]
      omega
    · rfl

/-- A thread before its debit: together the two accounts have what the serial run gives them. -/
theorem le_total_of_owed (hinv : ∀ id, 0 ≤ d.accounts id) (hne : t.fromAcc ≠ t.toAcc)
    (hd : ∀ id ∈ [t.second, t.first], txTransfer d.accounts t id = serial d.order id)
    (hid : id ∈ [t.second, t.first]) :
    d.accounts id ≤ totalBalance initialAccounts := by
  have hsum := txTransfer_pair d.accounts hne
  rw [hd _ (from_mem_records t), hd _ (to_mem_records t)] at hsum
  have hle := serial_pair_le_total d.order hne
  have hfrom := hinv t.fromAcc
  have hto := hinv t.toAcc
  rcases eq_from_or_to_of_mem hid with rfl | rfl <;> omega

theorem Local.le_total (hp : Local d p) (hinv : ∀ id, 0 ≤ d.accounts id)
    (hid : id ∈ ids p) : d.accounts id ≤ totalBalance initialAccounts := by
  have settled : ∀ {x : Account}, Settled d x → d.accounts x ≤ totalBalance initialAccounts := by
    intro x hx
    rw [hx]
    exact serial_le_total d.order x
  cases p with
  | growFirst t ids | lockFirst t ids =>
    rcases hp with ⟨-, rfl⟩
    simp [TwoPhase.ids] at hid
  | growSecond t ids | lockSecond t ids =>
    rcases hp with ⟨-, rfl, hs⟩
    obtain rfl : id = t.first := by simpa [TwoPhase.ids] using hid
    exact settled hs
  | check t ids =>
    rcases hp with ⟨hne, rfl, hd⟩
    exact le_total_of_owed hinv hne hd hid
  | debit t ids =>
    rcases hp with ⟨hne, rfl, -, hd⟩
    exact le_total_of_owed hinv hne hd hid
  | credit t ids =>
    rcases hp with ⟨hne, rfl, hfrom, hto⟩
    rcases eq_from_or_to_of_mem hid with rfl | rfl
    · exact settled hfrom
    · have hle := serial_le_total d.order t.toAcc
      have hpos := t.pos
      omega
  | commit t ids => exact settled (hp.2.2 id hid)
  | _ => simp [TwoPhase.ids] at hid

/-- The balances stay within the total, so the source's `int` arithmetic never overflows. -/
theorem accounts_le_total (as : List (Nat × Input)) (h : run code init as = some c) (id : Account) :
    c.data.accounts id ≤ totalBalance initialAccounts := by
  have hO := outline_run h
  cases ho : c.owner (.record id) with
  | none =>
    have hs : Settled c.data id := hO.res (.record id) ho
    rw [hs]
    exact serial_le_total c.data.order id
  | some th =>
    have hmem : id ∈ ids (c.pc th) := mem_held_record.1 ((hO.owns _ th).1 ho)
    exact (hO.loc th).1.le_total hO.inv hmem

theorem accounts_le_total_shared : ∃ c, run code init sharedSchedule = some c ∧
    c.data.accounts 1 ≤ totalBalance initialAccounts :=
  ⟨_, rfl, accounts_le_total sharedSchedule rfl 1⟩

/-! ## Deadlock freedom -/

/-- Records are ranked by their index, the print lock is above them. -/
def rank : Mutex → Nat
  | .record id => id
  | .print => numberOfAccounts

theorem rank_le (m : Mutex) : rank m ≤ numberOfAccounts := by
  cases m with
  | record id => exact id.isLt.le
  | print => exact le_rfl

theorem rank_lt_of_lock
    (hc : code p = .lock m mark next) (hp : Local d p) : ∀ m' ∈ held p, rank m' < rank m := by
  cases locks_of_code hc with
  | first t ids =>
    rcases hp with ⟨-, rfl⟩
    simp [held, TwoPhase.ids]
  | second t ids =>
    rcases hp with ⟨hne, rfl, -⟩
    have hlt := Transfer.first_lt_second hne
    simpa [held, TwoPhase.ids, rank] using hlt
  | print => simp [held, TwoPhase.ids]

/-- In every state: not every unfinished transfer is blocked by another unfinished one; no thread
asks for a lock that it holds; and a thread between transfers holds no lock. -/
theorem bank_never_deadlocks (as : List (Nat × Input)) (c : Config Mutex Bank Pc)
    (h : run code init as = some c) :
    ¬ ((∃ th, c.pc th ≠ .worker) ∧ ∀ th, c.pc th ≠ .worker →
      ∃ u, u ≠ th ∧ c.pc u ≠ .worker ∧ BlockedBy code c th u) ∧
      (∀ th, ¬ BlockedBy code c th th) ∧ (∀ th, c.pc th = .worker → ∀ m, c.owner m ≠ some th) := by
  have hO := outline_run h
  have horder : ∀ th m mark next, code (c.pc th) = .lock m mark next →
      ∀ m' ∈ outline.held (c.pc th), rank m' < rank m :=
    fun th m mark next hc => rank_lt_of_lock hc (hO.loc th).1
  refine ⟨?_, ?_, ?_⟩
  · rintro ⟨⟨th, hth⟩, hall⟩
    have hblocked : ∀ v, c.pc v ≠ .worker → ¬ ∀ u, ¬ BlockedBy code c v u := by
      intro v hv hfree
      rcases hall v hv with ⟨u, -, -, hb⟩
      exact hfree u hb
    rcases hO.exists_unblocked rank numberOfAccounts rank_le horder th with hfree | ⟨v, hv, hfree⟩
    · exact hblocked th hth hfree
    · refine hblocked v ?_ hfree
      intro hw
      exact hv (by simp [outline, hw, held, TwoPhase.ids])
  · rintro th ⟨m, mark, next, hc, ho⟩
    exact lt_irrefl _ (horder th m mark next hc m ((hO.owns m th).1 ho))
  · intro th hw m ho
    have := (hO.owns m th).1 ho
    simp [outline, hw, held, TwoPhase.ids] at this

/-- After seven steps of `sharedSchedule` thread `1` waits for the record that thread `0` has just
locked. -/
theorem bank_never_deadlocks_shared : ∃ c, run code init (sharedSchedule.take 7) = some c ∧
    BlockedBy code c 1 0 ∧
      ¬ ∀ th, c.pc th ≠ .worker → ∃ u, u ≠ th ∧ c.pc u ≠ .worker ∧ BlockedBy code c th u := by
  refine ⟨_, rfl, ⟨.record 1, noMark, _, rfl, rfl⟩, ?_⟩
  intro hall
  exact (bank_never_deadlocks (sharedSchedule.take 7) _ rfl).1 ⟨⟨0, by decide⟩, hall⟩

end SystemsLab.TwoPhase
