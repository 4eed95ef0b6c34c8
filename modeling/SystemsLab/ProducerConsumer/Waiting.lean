import SystemsLab.Concurrent.Consumers
import SystemsLab.Data.Ring

/-!
# The queue of `producer_consumer_queue_using_cond_variable.c`

Producers put twenty items each into a ring of twenty, consumers take them out.  A consumer looks at
`consumed_total` once for each item, before it waits, and stays in the loop around
`pthread_cond_wait` until it finds an item: after the last item every wake-up leads back into the
wait, the broadcast of `main` included (`broadcast_strands`).

`code` is `producer`, `consumer` and the part of `main` after the threads are created.  Threads `0,
…, producers - 1` are the producers, the next `consumers` threads are the consumers, and the one
after them is `main`.  The messages and the pauses are left out.
-/

namespace SystemsLab.ProducerConsumer

open Concurrent WaitSet

/-! ## Data -/

def BUFFER_SIZE : Nat := 20

def PRODUCES_PER_PRODUCER : Nat := 20

instance neZeroBufferSize : NeZero BUFFER_SIZE := ⟨by decide⟩

structure Shared where
  buffer : Ring Int BUFFER_SIZE
  consumedTotal : Nat
  notFull : List Nat
  notEmpty : List Nat
  /-- The threads that have returned, for `pthread_join`. -/
  finished : List Nat
  /-- The consumers inside `pthread_cond_wait(&not_empty, &mutex)`, woken or not. -/
  inWait : List Nat

def initial : Shared := ⟨.empty 0, 0, [], [], [], []⟩

/-- `NUMBER_OF_PRODUCERS` and `NUMBER_OF_CONSUMERS` -/
structure Team where
  producers : Nat
  consumers : Nat

namespace Team

def totalToBeProduced (t : Team) : Nat := t.producers * PRODUCES_PER_PRODUCER

/-- The thread of `main`, behind the producers and the consumers. -/
def main (t : Team) : Nat := t.producers + t.consumers

end Team

/-! ## Program -/

inductive Pc
  | start
  -- producer
  | produce (i : Nat)
  | produceLock (i : Nat)
  | produceTest (i : Nat)
  | notFullWait (i : Nat)
  | notFullRelease (i : Nat)
  | notFullBlocked (i : Nat)
  | put (i : Nat)
  | signalNotEmpty (i : Nat)
  | produceUnlock (i : Nat)
  | producerReturn
  | producerDone
  -- consumer
  | consumeLock
  | exitTest
  | exitUnlock
  | consumeTest
  | notEmptyWait
  | notEmptyRelease
  | notEmptyBlocked
  | notEmptyRelock
  | take
  | signalNotFull
  | consumeUnlock
  | consumerDone
  -- main
  | joinProducers (i : Nat)
  | mainLock
  | broadcast
  | mainUnlock
  | joinConsumers
  deriving DecidableEq

def code (t : Team) : Pc → Instr Unit Shared Pc Choice
  | .start => .act fun th _ _ d =>
    if th < t.producers then some (d, .produce 0)
    else if th < t.main then some (d, .consumeLock)
    else if th = t.main then some (d, .joinProducers 0)
    else none
  -- producer
  | .produce i => .act fun _ _ _ d =>
    some (d, if i < PRODUCES_PER_PRODUCER then .produceLock i else .producerReturn)
  | .produceLock i => .lock () noMark (.produceTest i)
  | .produceTest i => .act fun _ _ _ d =>
    some (d, if d.buffer.count = BUFFER_SIZE then .notFullWait i else .put i)
  | .notFullWait i => .act fun th _ _ d =>
    some ({ d with notFull := d.notFull ++ [th] }, .notFullRelease i)
  | .notFullRelease i => .unlock () (.notFullBlocked i)
  | .notFullBlocked i => .act fun th c _ d =>
    (returns d.notFull th c.spurious).map fun w => ({ d with notFull := w }, .produceLock i)
  | .put i => .act fun _ _ _ d =>
    some ({ d with buffer := d.buffer.push (i * 100 + i) }, .signalNotEmpty i)
  | .signalNotEmpty i => .act fun _ c _ d =>
    (wakeOne d.notEmpty c.target).map fun w => ({ d with notEmpty := w }, .produceUnlock i)
  | .produceUnlock i => .unlock () (.produce (i + 1))
  | .producerReturn => .act fun th _ _ d =>
    some ({ d with finished := th :: d.finished }, .producerDone)
  | .producerDone => .act fun _ _ _ _ => none
  -- consumer
  | .consumeLock => .lock () noMark .exitTest
  | .exitTest => .act fun _ _ _ d =>
    some (d, if t.totalToBeProduced ≤ d.consumedTotal then .exitUnlock else .consumeTest)
  | .exitUnlock => .unlock () .consumerDone
  | .consumeTest => .act fun _ _ _ d =>
    some (d, if d.buffer.count = 0 then .notEmptyWait else .take)
  | .notEmptyWait => .act fun th _ _ d =>
    some ({ d with notEmpty := d.notEmpty ++ [th], inWait := d.inWait ++ [th] }, .notEmptyRelease)
  | .notEmptyRelease => .unlock () .notEmptyBlocked
  | .notEmptyBlocked => .act fun th c _ d =>
    (returns d.notEmpty th c.spurious).map fun w => ({ d with notEmpty := w }, .notEmptyRelock)
  -- back in the loop, whose test is the one of the ring only
  | .notEmptyRelock => .lock () (fun th d => { d with inWait := leave d.inWait th }) .consumeTest
  | .take => .act fun _ _ _ d =>
    some ({ d with buffer := d.buffer.pop, consumedTotal := d.consumedTotal + 1 }, .signalNotFull)
  | .signalNotFull => .act fun _ c _ d =>
    (wakeOne d.notFull c.target).map fun w => ({ d with notFull := w }, .consumeUnlock)
  | .consumeUnlock => .unlock () .consumeLock
  | .consumerDone => .act fun _ _ _ _ => none
  -- main
  | .joinProducers i => .act fun _ _ _ d =>
    if i < t.producers then if i ∈ d.finished then some (d, .joinProducers (i + 1)) else none
    else some (d, .mainLock)
  | .mainLock => .lock () noMark .broadcast
  | .broadcast => .act fun _ _ _ d => some ({ d with notEmpty := [] }, .mainUnlock)
  | .mainUnlock => .unlock () .joinConsumers
  | .joinConsumers => .act fun _ _ _ _ => none

def init : Config Unit Shared Pc := Config.start initial .start

/-- Behind the broadcast of `main`. -/
def broadcastDone : Pc → Bool
  | .mainUnlock | .joinConsumers => true
  | _ => false

/-- All producers have finished, `main` has broadcast, everything is consumed, and a consumer waits
for another item. -/
def Stranded (t : Team) (c : Config Unit Shared Pc) : Prop :=
  (∀ th < t.producers, c.pc th = .producerDone) ∧ broadcastDone (c.pc t.main) ∧
    c.data.consumedTotal = t.totalToBeProduced ∧
    ∃ th < t.main, c.pc th = .notEmptyBlocked ∧ th ∈ c.data.notEmpty

instance decidableStranded (t : Team) (c : Config Unit Shared Pc) : Decidable (Stranded t c) := by
  unfold Stranded
  infer_instance

open List

/-! ## What a step does -/

def inside : Pc → Bool
  | .produceTest _ | .notFullWait _ | .notFullRelease _ | .put _ | .signalNotEmpty _ |
    .produceUnlock _ => true
  | .exitTest | .exitUnlock | .consumeTest | .notEmptyWait | .notEmptyRelease => true
  | .take | .signalNotFull | .consumeUnlock => true
  | .broadcast | .mainUnlock => true
  | _ => false

def consuming : Pc → Bool
  | .consumeLock | .exitTest | .exitUnlock | .consumeTest | .notEmptyWait | .notEmptyRelease => true
  | .notEmptyBlocked | .notEmptyRelock | .take | .signalNotFull | .consumeUnlock | .consumerDone =>
    true
  | _ => false

/-- In the loop, with the mutex. -/
def testing : Pc → Bool
  | .consumeTest | .notEmptyWait => true
  | _ => false

/-- In `pthread_cond_wait(&not_empty, &mutex)`. -/
def waits : Pc → Bool
  | .notEmptyRelease | .notEmptyBlocked | .notEmptyRelock => true
  | _ => false

def Team.isConsumer (t : Team) (th : Nat) : Prop := t.producers ≤ th ∧ th < t.main

def consumers (t : Team) : Consumers Shared Pc where
  total := t.totalToBeProduced
  isConsumer := t.isConsumer
  consumed := Shared.consumedTotal
  waiters := Shared.inWait
  inside := inside
  consuming := consuming
  sawMore := testing
  waits := waits
  listed := waits
  takes p := p = .take
  inside_of_takes := by simp [inside]
  inside_of_sawMore p h := by
    cases p with
    | consumeTest | notEmptyWait => rfl
    | _ => cases h
  consuming_of_waits p h := by
    cases p with
    | notEmptyRelease | notEmptyBlocked | notEmptyRelock => rfl
    | _ => cases h

/-- The last item is taken while no consumer is inside its wait. -/
def LastTakenAlone (t : Team) : Nat → Choice → Shared → Pc → Prop
  | _, _, d, .take => t.totalToBeProduced ≤ d.consumedTotal + 1 → d.inWait = []
  | _, _, _, _ => True

instance decidableLastTakenAlone (t : Team) (th : Nat) (i : Choice) (d : Shared) (p : Pc) :
    Decidable (LastTakenAlone t th i d p) := by
  unfold LastTakenAlone
  split <;> infer_instance

theorem takes_alone {t : Team} {th : Nat} {i : Choice} {d : Shared} {p : Pc}
    (h : LastTakenAlone t th i d p) (htakes : (consumers t).takes p) :
    t.totalToBeProduced ≤ d.consumedTotal + 1 → d.inWait = [] := by
  obtain rfl : p = .take := by simpa [consumers] using htakes
  exact h

variable {t : Team} {th : Nat} {i : Choice} {own : Unit → Option Nat} {d d' : Shared}
  {p p' next : Pc} {m : Unit} {mark : Nat → Shared → Shared}

theorem effect_same (hconsuming : consuming p' = consuming p) (hwaits : waits p' = waits p)
    (htesting : testing p' → testing p ∨ d.consumedTotal < t.totalToBeProduced)
    (hconsumed : d'.consumedTotal = d.consumedTotal) (hinWait : d'.inWait = d.inWait) :
    (consumers t).Effect th d p d' p' :=
  .same (fun h => .inl (hconsuming.symm.trans h)) htesting hwaits hwaits hconsumed hinWait

theorem effect_of_act {f : Nat → Choice → (Unit → Option Nat) → Shared → Option (Shared × Pc)}
    (hcode : code t p = .act f) (h : f th i own d = some (d', p')) :
    inside p' = inside p ∧ (consumers t).Effect th d p d' p' := by
  cases p with
  | start =>
    cases hcode
    dsimp only at h
    split_ifs at h with hproducer hconsumer hmain
    · cases h
      exact ⟨rfl, effect_same rfl rfl nofun rfl rfl⟩
    · cases h
      exact ⟨rfl, .same (fun _ => .inr ⟨not_lt.1 hproducer, hconsumer⟩) nofun rfl rfl rfl rfl⟩
    · cases h
      exact ⟨rfl, effect_same rfl rfl nofun rfl rfl⟩
  | produce i | produceTest i | joinProducers i =>
    cases hcode
    dsimp only at h
    split_ifs at h
    all_goals
      cases h
      exact ⟨rfl, effect_same rfl rfl nofun rfl rfl⟩
  | exitTest =>
    cases hcode
    dsimp only at h
    split_ifs at h with hdone
    · cases h
      exact ⟨rfl, effect_same rfl rfl nofun rfl rfl⟩
    · -- the loop around the wait does not come back to this test
      cases h
      exact ⟨rfl, effect_same rfl rfl (fun _ => .inr (not_le.1 hdone)) rfl rfl⟩
  | consumeTest =>
    cases hcode
    dsimp only at h
    split_ifs at h
    all_goals
      cases h
      exact ⟨rfl, effect_same rfl rfl (fun _ => .inl rfl) rfl rfl⟩
  | notFullWait i | put i | producerReturn | broadcast =>
    cases hcode
    cases h
    exact ⟨rfl, effect_same rfl rfl nofun rfl rfl⟩
  | notFullBlocked i | signalNotEmpty i | signalNotFull | notEmptyBlocked =>
    cases hcode
    rcases Option.map_eq_some_iff.1 h with ⟨w, -, heq⟩
    cases heq
    exact ⟨rfl, effect_same rfl rfl nofun rfl rfl⟩
  | notEmptyWait =>
    cases hcode
    cases h
    exact ⟨rfl, fun _ => .inl rfl, nofun, fun _ => .inr ⟨rfl, rfl⟩,
      fun _ => .inr (by simp [consumers]),
      fun u hu => by simp [consumers, hu], fun u hu _ _ => by simp [consumers, hu], .inl rfl⟩
  | take =>
    cases hcode
    cases h
    exact ⟨rfl, fun _ => .inl rfl, nofun, fun hmem => .inl ⟨hmem, rfl⟩, nofun, fun _ _ hmem => hmem,
      fun _ _ _ _ hmem => hmem, .inr ⟨rfl, rfl, rfl⟩⟩
  | producerDone | consumerDone | joinConsumers =>
    cases hcode
    cases h
  | _ => cases hcode

theorem effect_of_lock (hcode : code t p = .lock m mark next) :
    inside p = false ∧ inside next = true ∧ ∀ th d,
      (consumers t).Effect th d p (mark th d) next := by
  cases p with
  | produceLock i | consumeLock | mainLock =>
    cases hcode
    exact ⟨rfl, rfl, fun _ _ => effect_same rfl rfl nofun rfl rfl⟩
  | notEmptyRelock =>
    cases hcode
    exact ⟨rfl, rfl, fun th d => ⟨fun _ => .inl rfl, fun _ => .inl ⟨rfl, .inr rfl⟩,
      fun h => absurd rfl (mem_leave.1 h).2, nofun, fun u _ h => leave_subset h,
      fun u hu _ _ h => mem_leave.2 ⟨h, hu⟩, .inl rfl⟩⟩
  | _ => cases hcode

theorem effect_of_unlock (hcode : code t p = .unlock m next) :
    inside p = true ∧ inside next = false ∧ ∀ th d, (consumers t).Effect th d p d next := by
  cases p with
  | notFullRelease i | produceUnlock i | exitUnlock | notEmptyRelease |
    consumeUnlock | mainUnlock =>
    cases hcode
    exact ⟨rfl, rfl, fun _ _ => effect_same rfl rfl nofun rfl rfl⟩
  | _ => cases hcode

/-- What is known of the threads while the last item is not taken in front of a waiting consumer. -/
def sections (t : Team) : Sections (code t) (LastTakenAlone t) :=
  (consumers t).sections effect_of_lock effect_of_unlock effect_of_act takes_alone

theorem init_holds (t : Team) : (sections t).outline.Holds init :=
  Sections.start_holds rfl ⟨nofun, fun _ => rfl⟩
    fun _ => ⟨nofun, nofun, nofun, nofun⟩

theorem not_stranded {c : Config Unit Shared Pc} (h : (sections t).outline.Holds c) :
    ¬Stranded t c := by
  rintro ⟨-, -, hconsumed, th, -, hpc, -⟩
  have hat : (consumers t).At th c.data (c.pc th) := h.loc th
  have hinv : (consumers t).Waiters c.data := h.inv
  exact absurd hconsumed (hinv.lt_total (hat.listed (by rw [hpc]; rfl))).ne

/-- In a run in which the last item is taken while no other consumer is inside `pthread_cond_wait`,
no consumer is stranded. -/
theorem waiting_consumer_not_stranded (t : Team) (schedule : List (Nat × Choice))
    (c : Config Unit Shared Pc) (hmeets : Meets (code t) (LastTakenAlone t) init schedule)
    (h : run (code t) init schedule = some c) : ¬Stranded t c :=
  not_stranded (Outline.run_holds (init_holds t) hmeets h)

/-! ## The numbers of the source -/

def sourceTeam : Team := ⟨4, 3⟩

def rounds (k th : Nat) : List Nat := List.replicate (6 * k) th

/-- A producer does all its work, and thread 4 takes what it has produced. -/
def allItemsOf (th : Nat) : List Nat := th :: rounds 20 th ++ [th, th] ++ rounds 20 4

def allButOne : List Nat :=
  4 :: allItemsOf 0 ++ allItemsOf 1 ++ allItemsOf 2 ++ 3 :: rounds 19 3 ++ rounds 19 4

/-- The last item is produced, and its producer returns. -/
def lastItem : List Nat := rounds 1 3 ++ [3, 3]

/-- `main` joins the producers and broadcasts. -/
def mainBroadcasts : List Nat := List.replicate 9 7

/-- The other consumers come when everything is consumed. -/
def lateConsumers : List (Nat × Choice) :=
  (allButOne ++ lastItem ++ rounds 1 4 ++ mainBroadcasts ++ List.replicate 3 4 ++
    List.replicate 4 5 ++
    List.replicate 4 6).map fun th => (th, ⟨4, false⟩)

theorem late_consumers_not_stranded :
    ∃ c, run (code sourceTeam) init lateConsumers = some c ∧ c.data.consumedTotal = 80 ∧
      (∀ th < 7, c.pc th = .producerDone ∨ c.pc th = .consumerDone) ∧ ¬Stranded sourceTeam c := by
  obtain ⟨c, hrun, hconsumed, hdone⟩ :
      ∃ c, run (code sourceTeam) init lateConsumers = some c ∧ c.data.consumedTotal = 80 ∧
        ∀ th < 7, c.pc th = .producerDone ∨ c.pc th = .consumerDone :=
    exists_of_run (fun c : Config Unit Shared Pc => c.data.consumedTotal = 80 ∧
      ∀ th < 7, c.pc th = .producerDone ∨ c.pc th = .consumerDone) (by decide +kernel)
  exact ⟨c, hrun, hconsumed, hdone,
    waiting_consumer_not_stranded sourceTeam lateConsumers c (by decide +kernel) hrun⟩

/-- Threads 4 and 5 wait for the last item, and its signal wakes thread 4; the broadcast wakes
thread 5, which finds the ring empty. -/
def lastItemForTwo : List (Nat × Choice) :=
  (allButOne ++ List.replicate 5 4 ++ List.replicate 6 5 ++ lastItem ++ List.replicate 9 4 ++
    mainBroadcasts ++ List.replicate 5 5 ++ List.replicate 4 6).map fun th => (th, ⟨4, false⟩)

/-- The broadcast does not help: thread 5 waits again. -/
theorem broadcast_strands : ∃ c, run (code sourceTeam) init lastItemForTwo = some c ∧
    Stranded sourceTeam c :=
  exists_of_run (Stranded sourceTeam) (by decide +kernel)

end SystemsLab.ProducerConsumer
