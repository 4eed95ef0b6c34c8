import SystemsLab.Concurrent.Consumers
import SystemsLab.Data.Ring

/-!
# The buffer of `mutex_with_conditional_variable.c`

Producers put ten items each into a ring of five, consumers take them out until all are consumed.  A
consumer that finds the ring empty looks at `consumed_total` first and waits only if there is more
to come.  It is woken by the signals of the producers, one waiter for each item, and never by a
consumer: the waiters that are left when the last item is taken stay (`last_item_strands`).  The
items come out in the order in which they went in (`items_in_order`).

`code` has one instruction for each operation on the mutex or a condition variable and each access
to the shared data.  Threads `0, …, producers - 1` are the producers and the next `consumers`
threads are the consumers.  A thread calls `pthread_cond_wait` by joining the waiters and releasing
the mutex; after its return it locks the mutex again and repeats the test of its loop.  The messages
and the pauses are left out.
-/

namespace SystemsLab.BoundedBuffer

open Concurrent WaitSet

/-! ## Data -/

def BUFFER_SIZE : Nat := 5

def PRODUCE_PER_PRODUCER : Nat := 10

instance neZeroBufferSize : NeZero BUFFER_SIZE := ⟨by decide⟩

structure Shared where
  buffer : Ring Int BUFFER_SIZE
  consumedTotal : Nat
  notFull : List Nat
  notEmpty : List Nat

def initial : Shared := ⟨.empty 0, 0, [], []⟩

/-- `NUMBER_OF_PRODUCERS` and `NUMBER_OF_CONSUMERS` -/
structure Team where
  producers : Nat
  consumers : Nat

namespace Team

def totalToProduce (t : Team) : Nat := PRODUCE_PER_PRODUCER * t.producers

def threads (t : Team) : Nat := t.producers + t.consumers

end Team

/-! ## Program -/

inductive Pc
  | start
  -- producer
  | produce (iterator : Nat)
  | produceLock (iterator : Nat)
  | produceTest (iterator : Nat)
  | notFullWait (iterator : Nat)
  | notFullRelease (iterator : Nat)
  | notFullBlocked (iterator : Nat)
  | put (iterator : Nat)
  | signalNotEmpty (iterator : Nat)
  | produceUnlock (iterator : Nat)
  | producerDone
  -- consumer
  | consumeLock
  | consumeTest
  | exitTest
  | exitUnlock
  | notEmptyWait
  | notEmptyRelease
  | notEmptyBlocked
  | take
  | signalNotFull
  | consumeUnlock
  | finalTest
  | consumerDone
  deriving DecidableEq

/-- `item` of a producer; the identifiers of the producers count from 1. -/
def item (th iterator : Nat) : Int := (th + 1 : Nat) * 1000 + iterator

def code (t : Team) : Pc → Instr Unit Shared Pc Choice
  | .start => .act fun th _ _ d =>
    if th < t.producers then some (d, .produce 0)
    else if th < t.threads then some (d, .consumeLock)
    else none
  -- producer
  | .produce iterator => .act fun _ _ _ d =>
    some (d, if iterator < PRODUCE_PER_PRODUCER then .produceLock iterator else .producerDone)
  | .produceLock iterator => .lock () noMark (.produceTest iterator)
  | .produceTest iterator => .act fun _ _ _ d =>
    some (d, if d.buffer.count = BUFFER_SIZE then .notFullWait iterator else .put iterator)
  | .notFullWait iterator => .act fun th _ _ d =>
    some ({ d with notFull := d.notFull ++ [th] }, .notFullRelease iterator)
  | .notFullRelease iterator => .unlock () (.notFullBlocked iterator)
  | .notFullBlocked iterator => .act fun th c _ d =>
    (returns d.notFull th c.spurious).map fun w => ({ d with notFull := w }, .produceLock iterator)
  | .put iterator => .act fun th _ _ d =>
    some ({ d with buffer := d.buffer.push (item th iterator) }, .signalNotEmpty iterator)
  | .signalNotEmpty iterator => .act fun _ c _ d =>
    (wakeOne d.notEmpty c.target).map fun w => ({ d with notEmpty := w }, .produceUnlock iterator)
  | .produceUnlock iterator => .unlock () (.produce (iterator + 1))
  | .producerDone => .act fun _ _ _ _ => none
  -- consumer
  | .consumeLock => .lock () noMark .consumeTest
  | .consumeTest => .act fun _ _ _ d => some (d, if d.buffer.count = 0 then .exitTest else .take)
  | .exitTest => .act fun _ _ _ d =>
    some (d, if t.totalToProduce ≤ d.consumedTotal then .exitUnlock else .notEmptyWait)
  | .exitUnlock => .unlock () .consumerDone
  | .notEmptyWait => .act fun th _ _ d =>
    some ({ d with notEmpty := d.notEmpty ++ [th] }, .notEmptyRelease)
  | .notEmptyRelease => .unlock () .notEmptyBlocked
  | .notEmptyBlocked => .act fun th c _ d =>
    (returns d.notEmpty th c.spurious).map fun w => ({ d with notEmpty := w }, .consumeLock)
  | .take => .act fun _ _ _ d =>
    some ({ d with buffer := d.buffer.pop, consumedTotal := d.consumedTotal + 1 }, .signalNotFull)
  | .signalNotFull => .act fun _ c _ d =>
    (wakeOne d.notFull c.target).map fun w => ({ d with notFull := w }, .consumeUnlock)
  | .consumeUnlock => .unlock () .finalTest
  | .finalTest => .act fun _ _ _ d =>
    -- the test behind the critical section, which reads the counter without the mutex
    some (d, if t.totalToProduce ≤ d.consumedTotal then .consumerDone else .consumeLock)
  | .consumerDone => .act fun _ _ _ _ => none

def init : Config Unit Shared Pc := Config.start initial .start

/-- In front of `pthread_mutex_lock`, or inside it. -/
def awaitsMutex : Pc → Bool
  | .produceLock _ | .consumeLock => true
  | _ => false

/-- Everything is consumed, all producers have finished, nobody has or wants the mutex, and a
consumer waits for another item. -/
def Stranded (t : Team) (c : Config Unit Shared Pc) : Prop :=
  c.data.consumedTotal = t.totalToProduce ∧ (∀ th < t.producers, c.pc th = .producerDone) ∧
    c.owner () = none ∧ (∀ th < t.threads, awaitsMutex (c.pc th) = false) ∧
    ∃ th < t.threads, c.pc th = .notEmptyBlocked ∧ th ∈ c.data.notEmpty

instance decidableStranded (t : Team) (c : Config Unit Shared Pc) : Decidable (Stranded t c) := by
  unfold Stranded
  infer_instance

open List

/-! ## What a step does -/

def inside : Pc → Bool
  | .produceTest _ | .notFullWait _ | .notFullRelease _ | .put _ | .signalNotEmpty _ |
    .produceUnlock _ => true
  | .consumeTest | .exitTest | .exitUnlock | .notEmptyWait | .notEmptyRelease => true
  | .take | .signalNotFull | .consumeUnlock => true
  | _ => false

def consuming : Pc → Bool
  | .consumeLock | .consumeTest | .exitTest | .exitUnlock | .notEmptyWait | .notEmptyRelease => true
  | .notEmptyBlocked | .take | .signalNotFull | .consumeUnlock | .finalTest | .consumerDone => true
  | _ => false

def waits : Pc → Bool
  | .notEmptyRelease | .notEmptyBlocked => true
  | _ => false

/-- Thread `th` runs `consumer`. -/
def Team.isConsumer (t : Team) (th : Nat) : Prop := t.producers ≤ th ∧ th < t.threads

theorem isConsumer_unique {t : Team} (hone : t.consumers = 1) (u v : Nat) (hu : t.isConsumer u)
    (hv : t.isConsumer v) : u = v := by
  rw [Team.isConsumer, Team.threads] at hu hv
  omega

def consumers (t : Team) : Consumers Shared Pc where
  total := t.totalToProduce
  isConsumer := t.isConsumer
  consumed := Shared.consumedTotal
  waiters := Shared.notEmpty
  inside := inside
  consuming := consuming
  sawMore p := p = .notEmptyWait
  waits := waits
  -- a waiter leaves the list when it is woken
  listed _ := false
  takes p := p = .take
  inside_of_takes := by simp [inside]
  inside_of_sawMore := by simp [inside]
  consuming_of_waits p h := by
    cases p with
    | notEmptyRelease | notEmptyBlocked => rfl
    | _ => cases h

/-- The last item is taken while no consumer waits for one. -/
def LastTakenAlone (t : Team) : Nat → Choice → Shared → Pc → Prop
  | _, _, d, .take => t.totalToProduce ≤ d.consumedTotal + 1 → d.notEmpty = []
  | _, _, _, _ => True

instance decidableLastTakenAlone (t : Team) (th : Nat) (i : Choice) (d : Shared) (p : Pc) :
    Decidable (LastTakenAlone t th i d p) := by
  unfold LastTakenAlone
  split <;> infer_instance

theorem takes_alone {t : Team} {th : Nat} {i : Choice} {d : Shared} {p : Pc}
    (h : LastTakenAlone t th i d p) (htakes : (consumers t).takes p) :
    t.totalToProduce ≤ d.consumedTotal + 1 → d.notEmpty = [] := by
  obtain rfl : p = .take := by simpa [consumers] using htakes
  exact h

variable {t : Team} {th : Nat} {i : Choice} {own : Unit → Option Nat} {d d' : Shared}
  {p p' next : Pc} {m : Unit} {mark : Nat → Shared → Shared}

theorem effect_same (hconsuming : consuming p' = consuming p) (hwaits : waits p' = waits p)
    (hwait : p' = .notEmptyWait → d.consumedTotal < t.totalToProduce)
    (hconsumed : d'.consumedTotal = d.consumedTotal) (hsub : d'.notEmpty ⊆ d.notEmpty) :
    (consumers t).Effect th d p d' p' :=
  ⟨fun h => .inl (hconsuming.symm.trans h),
    fun h => .inr (hconsumed.trans_lt (hwait (by simpa [consumers] using h))),
    fun hmem => .inl ⟨hsub hmem, hwaits⟩, nofun, fun _ _ hmem => hsub hmem, nofun, .inl hconsumed⟩

theorem effect_of_act {f : Nat → Choice → (Unit → Option Nat) → Shared → Option (Shared × Pc)}
    (hcode : code t p = .act f) (h : f th i own d = some (d', p')) :
    inside p' = inside p ∧ (consumers t).Effect th d p d' p' := by
  cases p with
  | start =>
    cases hcode
    dsimp only at h
    split_ifs at h with hproducer hconsumer
    · cases h
      exact ⟨rfl, effect_same rfl rfl nofun rfl (Subset.refl _)⟩
    · cases h
      exact ⟨rfl, .same (fun _ => .inr ⟨not_lt.1 hproducer, hconsumer⟩) nofun rfl rfl rfl rfl⟩
  | produce iterator | produceTest iterator | consumeTest | finalTest =>
    cases hcode
    dsimp only at h
    split_ifs at h
    all_goals
      cases h
      exact ⟨rfl, effect_same rfl rfl nofun rfl (Subset.refl _)⟩
  | exitTest =>
    cases hcode
    dsimp only at h
    split_ifs at h with hdone
    · cases h
      exact ⟨rfl, effect_same rfl rfl nofun rfl (Subset.refl _)⟩
    · -- the test is made again after a wake-up that finds the buffer empty
      cases h
      exact ⟨rfl, effect_same rfl rfl (fun _ => not_le.1 hdone) rfl (Subset.refl _)⟩
  | notFullWait iterator | put iterator =>
    cases hcode
    cases h
    exact ⟨rfl, effect_same rfl rfl nofun rfl (Subset.refl _)⟩
  | notFullBlocked iterator | signalNotFull =>
    cases hcode
    rcases Option.map_eq_some_iff.1 h with ⟨w, -, heq⟩
    cases heq
    exact ⟨rfl, effect_same rfl rfl nofun rfl (Subset.refl _)⟩
  | signalNotEmpty iterator =>
    cases hcode
    rcases Option.map_eq_some_iff.1 h with ⟨w, hw, heq⟩
    cases heq
    exact ⟨rfl, effect_same rfl rfl nofun rfl (wakeOne_subset hw)⟩
  | notEmptyWait =>
    cases hcode
    cases h
    exact ⟨rfl, fun _ => .inl rfl, nofun, fun _ => .inr ⟨rfl, rfl⟩, nofun,
      fun u hu => by simp [consumers, hu], nofun, .inl rfl⟩
  | notEmptyBlocked =>
    cases hcode
    rcases Option.map_eq_some_iff.1 h with ⟨w, hw, heq⟩
    obtain rfl := returns_eq hw
    cases heq
    exact ⟨rfl, fun _ => .inl rfl, nofun, fun hmem => absurd rfl (mem_leave.1 hmem).2, nofun,
      fun _ _ hmem => leave_subset hmem, nofun, .inl rfl⟩
  | take =>
    cases hcode
    cases h
    exact ⟨rfl, fun _ => .inl rfl, nofun, fun hmem => .inl ⟨hmem, rfl⟩, nofun,
      fun _ _ hmem => hmem, nofun,
      .inr ⟨rfl, rfl, rfl⟩⟩
  | producerDone | consumerDone =>
    cases hcode
    cases h
  | _ => cases hcode

theorem effect_of_lock (hcode : code t p = .lock m mark next) :
    inside p = false ∧ inside next = true ∧ ∀ th d,
      (consumers t).Effect th d p (mark th d) next := by
  cases p with
  | produceLock iterator | consumeLock =>
    cases hcode
    exact ⟨rfl, rfl, fun _ _ => effect_same rfl rfl nofun rfl (Subset.refl _)⟩
  | _ => cases hcode

theorem effect_of_unlock (hcode : code t p = .unlock m next) :
    inside p = true ∧ inside next = false ∧ ∀ th d, (consumers t).Effect th d p d next := by
  cases p with
  | notFullRelease iterator | produceUnlock iterator | exitUnlock | notEmptyRelease |
    consumeUnlock =>
    cases hcode
    exact ⟨rfl, rfl, fun _ _ => effect_same rfl rfl nofun rfl (Subset.refl _)⟩
  | _ => cases hcode

/-- What is known of the threads while the last item is not taken in front of a waiting consumer. -/
def sections (t : Team) : Sections (code t) (LastTakenAlone t) :=
  (consumers t).sections effect_of_lock effect_of_unlock effect_of_act takes_alone

theorem init_holds (t : Team) : (sections t).outline.Holds init :=
  Sections.start_holds rfl ⟨nofun, fun _ => rfl⟩
    fun _ => ⟨nofun, nofun, nofun, nofun⟩

variable {c : Config Unit Shared Pc}

theorem not_stranded (h : (sections t).outline.Holds c) : ¬Stranded t c := by
  rintro ⟨hconsumed, -, -, -, th, -, -, hmem⟩
  have hinv : (consumers t).Waiters c.data := h.inv
  exact absurd hconsumed (hinv.lt_total hmem).ne

theorem one_consumer_takes_alone (hone : t.consumers = 1) (h : (sections t).outline.Holds c) :
    LastTakenAlone t th i c.data (c.pc th) := by
  cases hpc : c.pc th with
  | take =>
    have hat : (consumers t).At th c.data (c.pc th) := h.loc th
    rw [hpc] at hat
    exact fun _ => hat.waiters_eq_nil (isConsumer_unique hone) h.inv rfl rfl
  | _ => trivial

/-- A sole consumer is never stranded. -/
theorem one_consumer_not_stranded (hone : t.consumers = 1) (schedule : List (Nat × Choice))
    (h : run (code t) init schedule = some c) : ¬Stranded t c := by
  have hmeets : Meets (code t) (LastTakenAlone t) init schedule :=
    meets_of_invariant (J := (sections t).outline.Holds)
      (fun hc hs => Outline.step_holds hc (one_consumer_takes_alone hone hc) hs)
      (fun hc => one_consumer_takes_alone hone hc) (init_holds t)
  exact not_stranded (Outline.run_holds (init_holds t) hmeets h)

/-- The consumer waits for the first item; the items come and go five at a time. -/
def fiveAtATime : List (Nat × Choice) :=
  (replicate 6 1 ++ replicate 31 0 ++ replicate 31 1 ++ replicate 31 0 ++ replicate 30 1).map
    fun th => (th, ⟨1, false⟩)

theorem one_consumer_not_stranded_waits : ∃ c, run (code ⟨1, 1⟩) init fiveAtATime = some c ∧
    c.data.consumedTotal = 10 ∧ c.pc 0 = .producerDone ∧ c.pc 1 = .consumerDone ∧
      ¬Stranded ⟨1, 1⟩ c := by
  obtain ⟨c, hrun, htotal, hproducer, hconsumer⟩ : ∃ c, run (code ⟨1, 1⟩) init fiveAtATime =
    some c ∧ c.data.consumedTotal = 10 ∧ c.pc 0 = .producerDone ∧ c.pc 1 = .consumerDone :=
    exists_of_run (fun c : Config Unit Shared Pc =>
      c.data.consumedTotal = 10 ∧ c.pc 0 = .producerDone ∧ c.pc 1 = .consumerDone)
        (by decide +kernel)
  exact ⟨c, hrun, htotal, hproducer, hconsumer, one_consumer_not_stranded rfl _ hrun⟩

/-- In a run in which the last item is taken while no consumer waits, no consumer is stranded. -/
theorem consumer_not_stranded (t : Team) (schedule : List (Nat × Choice))
    (c : Config Unit Shared Pc) (hmeets : Meets (code t) (LastTakenAlone t) init schedule)
    (h : run (code t) init schedule = some c) : ¬Stranded t c :=
  not_stranded (Outline.run_holds (init_holds t) hmeets h)

/-! ## The numbers of the source -/

def sourceTeam : Team := ⟨2, 2⟩

def rounds (k th : Nat) : List Nat := List.replicate (6 * k) th

def nineteenItems : List Nat :=
  0 :: rounds 5 0 ++ 2 :: rounds 5 2 ++ rounds 5 0 ++ rounds 5 2 ++ 1 :: rounds 5 1 ++ rounds 5 2 ++
    rounds 4 1 ++ rounds 4 2

def lateConsumer : List (Nat × Choice) :=
  (nineteenItems ++ rounds 1 1 ++ [0, 1] ++ rounds 1 2 ++ List.replicate 5 3).map fun th =>
    (th, ⟨2, false⟩)

theorem late_consumer_not_stranded : ∃ c, run (code sourceTeam) init lateConsumer = some c ∧
    c.data.consumedTotal = 20 ∧
      (∀ th < 4, c.pc th = .producerDone ∨ c.pc th = .consumerDone) ∧ ¬Stranded sourceTeam c := by
  obtain ⟨c, hrun, hconsumed, hdone⟩ :
      ∃ c, run (code sourceTeam) init lateConsumer = some c ∧ c.data.consumedTotal = 20 ∧
        ∀ th < 4, c.pc th = .producerDone ∨ c.pc th = .consumerDone :=
    exists_of_run (fun c : Config Unit Shared Pc => c.data.consumedTotal = 20 ∧
      ∀ th < 4, c.pc th = .producerDone ∨ c.pc th = .consumerDone) (by decide +kernel)
  exact ⟨c, hrun, hconsumed, hdone,
    consumer_not_stranded sourceTeam lateConsumer c (by decide +kernel) hrun⟩

/-- Both consumers wait for the last item, and its signal wakes thread 2. -/
def lastItemForTwo : List (Nat × Choice) :=
  (nineteenItems ++ List.replicate 5 2 ++ List.replicate 6 3 ++ rounds 1 1 ++ [0, 1] ++
    List.replicate 7 2).map fun th => (th, ⟨2, false⟩)

/-- The other one waits forever. -/
theorem last_item_strands : ∃ c, run (code sourceTeam) init lastItemForTwo = some c ∧
    Stranded sourceTeam c :=
  exists_of_run (Stranded sourceTeam) (by decide +kernel)

/-! ## The items -/

def putItems (th : Nat) (_ : Shared) : Pc → List Int
  | .put iterator => [item th iterator]
  | _ => []

def takenItems (_ : Nat) (d : Shared) : Pc → List Int
  | .take => [d.buffer.first]
  | _ => []

/-- A thread puts an item where it has seen a free place, and takes one where it has seen that there
is one. -/
def Ready (d : Shared) : Pc → Prop
  | .put _ => d.buffer.count < BUFFER_SIZE
  | .take => d.buffer.count ≠ 0
  | _ => True

variable {q : Pc}

theorem ready_of_outside (h : inside p = false) : Ready d p := by
  cases p with
  | put | take => cases h
  | _ => trivial

/-- What a step from `p` to `p'` does to the buffer. -/
structure Passes (th : Nat) (d : Shared) (p : Pc) (d' : Shared) (p' : Pc) : Prop where
  inStep : d'.buffer.InStep
  balance : d.buffer.contents ++ putItems th d p = takenItems th d p ++ d'.buffer.contents
  ready : Ready d' p'
  unused : inside p = false → d'.buffer = d.buffer

theorem passes_of_lock (hcode : code t p = .lock m mark next) (hinv : d.buffer.InStep) :
    Passes th d p (mark th d) next := by
  cases p with
  | produceLock | consumeLock =>
    cases hcode
    exact ⟨hinv, List.append_nil _, trivial, fun _ => rfl⟩
  | _ => cases hcode

theorem passes_of_unlock (hcode : code t p = .unlock m next) (hinv : d.buffer.InStep) :
    Passes th d p d next := by
  cases p with
  | notFullRelease | produceUnlock | exitUnlock | notEmptyRelease | consumeUnlock =>
    cases hcode
    exact ⟨hinv, List.append_nil _, trivial, fun _ => rfl⟩
  | _ => cases hcode

theorem passes_of_act {f : Nat → Choice → (Unit → Option Nat) → Shared → Option (Shared × Pc)}
    (hcode : code t p = .act f) (h : f th i own d = some (d', p')) (hinv : d.buffer.InStep)
    (hready : Ready d p) :
    Passes th d p d' p' := by
  cases p with
  | start =>
    cases hcode
    dsimp only at h
    split_ifs at h
    all_goals
      cases h
      exact ⟨hinv, List.append_nil _, trivial, fun _ => rfl⟩
  | produce | produceTest | consumeTest | exitTest | finalTest =>
    cases hcode
    cases h
    refine ⟨hinv, List.append_nil _, ?_, fun _ => rfl⟩
    -- a waiting loop is left only where its test fails, and the mutex keeps that true
    split_ifs with htest
    all_goals first | trivial | exact htest | exact lt_of_le_of_ne hinv.count_le htest
  | notFullWait | notEmptyWait =>
    cases hcode
    cases h
    exact ⟨hinv, List.append_nil _, trivial, fun _ => rfl⟩
  | notFullBlocked | signalNotEmpty | notEmptyBlocked | signalNotFull =>
    cases hcode
    rcases Option.map_eq_some_iff.1 h with ⟨w, -, ⟨⟩⟩
    exact ⟨hinv, List.append_nil _, trivial, fun _ => rfl⟩
  | put iterator =>
    cases hcode
    cases h
    exact ⟨Ring.push_inStep hinv hready _, (Ring.contents_push hinv hready _).symm, trivial, nofun⟩
  | take =>
    cases hcode
    cases h
    exact ⟨Ring.pop_inStep hinv hready, (List.append_nil _).trans (Ring.contents_pop hready),
      trivial, nofun⟩
  | producerDone | consumerDone =>
    cases hcode
    cases h
  | _ => cases hcode

theorem Passes.frame (h : Passes th d p d' p') (houtside : inside p = true → inside q = false)
    (hq : Ready d q) :
    Ready d' q := by
  cases hp : inside p with
  | true => exact ready_of_outside (houtside hp)
  | false =>
    unfold Ready
    rw [h.unused hp]
    exact hq

def bufferSections (t : Team) : Sections (code t) fun _ _ _ _ => True where
  __ := sections t
  inv d := d.buffer.InStep
  loc _ := Ready
  lock_loc hcode hinv _ := ⟨(passes_of_lock hcode hinv).inStep, (passes_of_lock hcode hinv).ready⟩
  lock_frame hcode hinv _ _ _ :=
    (passes_of_lock hcode hinv).frame (by simp [(effect_of_lock hcode).1])
  unlock_loc {th _ _ _ _} hcode hinv _ := (passes_of_unlock hcode hinv : Passes th ..).ready
  act_loc hcode _ hf hinv hready :=
    ⟨(passes_of_act hcode hf hinv hready).inStep, (passes_of_act hcode hf hinv hready).ready⟩
  act_frame hcode _ hf hinv hready _ hdisjoint :=
    (passes_of_act hcode hf hinv hready).frame (Sections.outside_of_only hdisjoint)

/-- In every run the items taken are the first of those that were put, in their order, and the
others are in the buffer, which never holds more than it has room for. -/
theorem items_in_order (t : Team) (schedule : List (Nat × Choice)) (c : Config Unit Shared Pc)
    (h : run (code t) init schedule = some c) : c.data.buffer.count ≤ BUFFER_SIZE ∧
    yields (code t) putItems init schedule = yields (code t) takenItems init schedule ++
      c.data.buffer.contents := by
  have hinit : (bufferSections t).outline.Holds init :=
    Sections.start_holds rfl (Ring.empty_inStep 0) fun _ => trivial
  have hend := Outline.run_holds hinit (meets_of_forall (fun _ _ _ _ => trivial) schedule init) h
  refine ⟨Ring.InStep.count_le hend.inv,
    run_balance (J := (bufferSections t).outline.Holds) (fun d => d.buffer.contents)
    putItems takenItems (fun hc hs => ⟨Outline.step_holds hc trivial hs, ?_⟩) hinit h⟩
  rcases step_cases hs with ⟨m, mark, next, hcode, -, rfl⟩ | ⟨m, next, hcode, rfl⟩ |
    ⟨f, d, p, hcode, hf, rfl⟩
  · exact (passes_of_lock hcode hc.inv).balance
  · exact (passes_of_unlock hcode hc.inv).balance
  · exact (passes_of_act hcode hf hc.inv (hc.loc _)).balance

theorem items_in_order_late : ∃ c, run (code sourceTeam) init lateConsumer = some c ∧
    c.data.consumedTotal = 20 ∧
    yields (code sourceTeam) putItems init lateConsumer =
      yields (code sourceTeam) takenItems init lateConsumer ++ c.data.buffer.contents := by
  obtain ⟨c, hrun, hconsumed⟩ : ∃ c, run (code sourceTeam) init lateConsumer = some c ∧
    c.data.consumedTotal = 20 :=
    exists_of_run _ (by decide +kernel)
  exact ⟨c, hrun, hconsumed, (items_in_order sourceTeam lateConsumer c hrun).2⟩

end SystemsLab.BoundedBuffer
