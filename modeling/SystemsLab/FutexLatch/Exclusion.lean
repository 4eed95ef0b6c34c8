import SystemsLab.Concurrent.Program

/-!
# The latch of `latch_demo_using_futex.c`

`latch_acquire` tries to change `state` from 0 to 1 once, then up to a hundred times in a loop that
reads `state` first, and then sleeps in `futex_wait` between two tries.  `latch_release` stores 0
and wakes one sleeper.  `Shared` has a ghost count of the increments.

Any number of threads run `worker`, with any number of rounds.  The increment `shared_counter++` is
a load and a store.  `futex_wait` goes to sleep if the word is 1 and fails with `EAGAIN` otherwise;
a sleeper returns when it was woken, spuriously, or with `EINTR`.  The other errors of the two
system calls end the process and are left out, and so are the messages.

`Exclusive` says that at most one thread holds the latch, that the word is 1 exactly while one does,
and that a value loaded for the increment is still the value of the counter.  Each effect of a step
keeps it (`Effect.exclusive`), whatever the kernel does with the sleepers.

A thread with a compare-exchange ahead of its next `futex_wait` gets the free latch
(`acquires_of_triesNext`).  One that is about to call `futex_wait` does not: the call fails with
`EAGAIN`, because the word is 0, and the loop calls it again (`stuck_of_not_triesNext`).
-/

namespace SystemsLab.FutexLatch

open Concurrent

/-! ## Data -/

structure Shared where
  /-- `latch.state`: 0 = free, 1 = held -/
  state : Int
  /-- The threads that sleep on the word and have not been woken. -/
  waiters : List Nat
  sharedCounter : Int
  increments : Nat

def latchInit : Shared := ⟨0, [], 0, 0⟩

inductive Return
  | woken
  | spurious
  | interrupted
  deriving DecidableEq

/-- What the kernel decides: the return of a sleeper, and the sleeper that `futex_wake` wakes. -/
structure Kernel where
  ret : Return
  target : Nat

/-! ## Program -/

/-- The bound of the spin loop. -/
def SPINS : Nat := 100

/-- Program points.  `expected` is 0 at every compare-exchange and 1 at `futexWait`. -/
inductive Pc
  | worker
  | tryFast
  | spinLoad (spin : Nat)
  | spinTry (spin : Nat)
  | pause (spin : Nat)
  | futexWait
  | asleep
  | wokenTry
  | critical
  | increment (value : Int)
  | release
  | futexWake
  deriving DecidableEq

/-- `atomic_compare_exchange_strong_explicit(&latch->state, &expected, 1, ...)` with `expected = 0`.
-/
def compareExchange (d : Shared) (failed : Pc) : Shared × Pc :=
  if d.state = 0 then ({ d with state := 1 }, .critical) else (d, failed)

/-- A sleeper returns from `futex_wait`. -/
def wakeUp (th : Nat) (d : Shared) : Return → Option (Shared × Pc)
  | .woken => (WaitSet.returns d.waiters th false).map fun w => ({ d with waiters := w }, .wokenTry)
  | .spurious => (WaitSet.returns d.waiters th true).map fun w =>
    ({ d with waiters := w }, .wokenTry)
  | .interrupted => (WaitSet.returns d.waiters th true).map fun w =>
    ({ d with waiters := w }, .futexWait)

def code : Pc → Instr Empty Shared Pc Kernel
  | .worker => .act fun _ _ _ d => some (d, .tryFast)
  -- latch_acquire
  | .tryFast => .act fun _ _ _ d => some (compareExchange d (.spinLoad 0))
  | .spinLoad spin => .act fun _ _ _ d =>
    some (d, if d.state = 0 then .spinTry spin else .pause spin)
  | .spinTry spin => .act fun _ _ _ d => some (compareExchange d (.pause spin))
  | .pause spin => .act fun _ _ _ d =>
    some (d, if spin + 1 < SPINS then .spinLoad (spin + 1) else .futexWait)
  | .futexWait => .act fun th _ _ d =>
    -- `EAGAIN` goes back to the top of the loop, which is the next `futex_wait`
    if d.state = 1 then some ({ d with waiters := d.waiters ++ [th] }, .asleep)
    else some (d, .futexWait)
  | .asleep => .act fun th k _ d => wakeUp th d k.ret
  | .wokenTry => .act fun _ _ _ d => some (compareExchange d .futexWait)
  -- shared_counter++
  | .critical => .act fun _ _ _ d => some (d, .increment d.sharedCounter)
  | .increment value => .act fun _ _ _ d =>
    some ({ d with sharedCounter := value + 1, increments := d.increments + 1 }, .release)
  -- latch_release
  | .release => .act fun _ _ _ d => some ({ d with state := 0 }, .futexWake)
  | .futexWake => .act fun _ k _ d =>
    (WaitSet.wakeOne d.waiters k.target).map fun w => ({ d with waiters := w }, .worker)

def init : Config Empty Shared Pc := Config.start latchInit .worker

/-- Between a successful compare-exchange and the store of `latch_release`. -/
def holds : Pc → Bool
  | .critical | .increment _ | .release => true
  | _ => false

/-- Inside `latch_acquire` and not asleep. -/
def acquiring : Pc → Bool
  | .tryFast | .spinLoad _ | .spinTry _ | .pause _ | .futexWait | .wokenTry => true
  | _ => false

/-! ## What a step does -/

/-- The effect of one step of a thread on the word and on the counter. -/
inductive Effect : Shared → Pc → Shared → Pc → Prop
  /-- outside: neither the word nor the counter changes -/
  | outside {d d' : Shared} {p p' : Pc} : holds p = false → holds p' = false → d'.state = d.state →
      d'.sharedCounter = d.sharedCounter → d'.increments = d.increments → Effect d p d' p'
  | acquire {d : Shared} {p : Pc} : holds p = false → d.state = 0 →
      Effect d p { d with state := 1 } .critical
  | load (d : Shared) : Effect d .critical d (.increment d.sharedCounter)
  | store (d : Shared) (value : Int) : Effect d (.increment value)
      { d with sharedCounter := value + 1, increments := d.increments + 1 } .release
  | release (d : Shared) : Effect d .release { d with state := 0 } .futexWake

variable {d d' : Shared} {p p' : Pc}

theorem Effect.quiet (hp : holds p = false) (hp' : holds p' = false) : Effect d p d p' :=
  .outside hp hp' rfl rfl rfl

theorem Effect.compareExchange {failed : Pc} (hp : holds p = false)
    (hfailed : holds failed = false) (h : compareExchange d failed = (d', p')) :
    Effect d p d' p' := by
  rw [FutexLatch.compareExchange] at h
  split_ifs at h with hfree
  · cases h
    exact .acquire hp hfree
  · cases h
    exact .quiet hp hfailed

theorem Effect.waiters {waiters : Option (List Nat)} {q : Pc} (hp : holds p = false)
    (hq : holds q = false)
    (h : (waiters.map fun w => ({ d with waiters := w }, q)) = some (d', p')) :
    Effect d p d' p' := by
  rcases Option.map_eq_some_iff.1 h with ⟨w, -, heq⟩
  cases heq
  exact .outside hp hq rfl rfl rfl

theorem effect_of_act {th : Nat} {k : Kernel} {own : Empty → Option Nat}
    {f : Nat → Kernel → (Empty → Option Nat) → Shared → Option (Shared × Pc)}
    (hcode : code p = .act f) (h : f th k own d = some (d', p')) : Effect d p d' p' := by
  cases p with
  | worker =>
    cases hcode
    cases h
    exact .quiet rfl rfl
  | tryFast | spinTry spin | wokenTry =>
    cases hcode
    exact .compareExchange rfl rfl (Option.some.inj h)
  | spinLoad spin | pause spin =>
    cases hcode
    cases h
    refine .quiet rfl ?_
    split <;> rfl
  | futexWait =>
    cases hcode
    dsimp only at h
    split at h
    · cases h
      exact .outside rfl rfl rfl rfl rfl
    · cases h
      exact .quiet rfl rfl
  | asleep =>
    cases hcode
    cases hret : k.ret with
    | woken | spurious | interrupted =>
      dsimp only at h
      rw [hret] at h
      exact .waiters rfl rfl h
  | critical =>
    cases hcode
    cases h
    exact .load d
  | increment value =>
    cases hcode
    cases h
    exact .store d value
  | release =>
    cases hcode
    cases h
    exact .release d
  | futexWake =>
    cases hcode
    exact .waiters rfl rfl h

open Function

/-! ## The invariant -/

structure Exclusive (pc : Nat → Pc) (d : Shared) : Prop where
  word : d.state = 0 ∨ d.state = 1
  unique : ∀ t u, holds (pc t) → holds (pc u) → t = u
  held : d.state = 1 ↔ ∃ t, holds (pc t)
  loaded : ∀ t value, pc t = .increment value → value = d.sharedCounter
  counted : d.sharedCounter = d.increments

variable {c c' : Config Empty Shared Pc} {pc : Nat → Pc} {d d' : Shared} {th : Nat} {p' : Pc}

theorem Exclusive.start : Exclusive init.pc init.data where
  word := .inl rfl
  unique t u ht := by
    cases ht
  held := by
    constructor
    · nofun
    · rintro ⟨t, ht⟩
      cases ht
  loaded t value h := by
    cases h
  counted := rfl

theorem Exclusive.not_holds (h : Exclusive pc d) (hfree : d.state = 0) (t : Nat) :
    holds (pc t) = false := by
  rw [Bool.eq_false_iff]
  intro ht
  have hheld := h.held.2 ⟨t, ht⟩
  omega

theorem Exclusive.others (h : Exclusive pc d) (hth : holds (pc th)) {u : Nat} (hu : u ≠ th) :
    holds (pc u) = false := by
  rw [Bool.eq_false_iff]
  exact fun hheld => hu (h.unique u th hheld hth)

theorem holds_update {u : Nat} :
    holds (update pc th p' u) = if u = th then holds p' else holds (pc u) := by
  rw [update_apply]
  split <;> rfl

theorem holds_update_same (h : holds p' = holds (pc th)) (u : Nat) :
    holds (update pc th p' u) = holds (pc u) := by
  rw [holds_update]
  split_ifs with hu
  · rw [h, hu]
  · rfl

theorem Exclusive.of_same_holders {pc' : Nat → Pc} (h : Exclusive pc d)
    (hholds : ∀ u, holds (pc' u) = holds (pc u)) (hstate : d'.state = d.state)
    (hloaded : ∀ t value, pc' t = .increment value → value = d'.sharedCounter)
    (hcounted : d'.sharedCounter = d'.increments) : Exclusive pc' d' where
  word := by
    rw [hstate]
    exact h.word
  unique t u ht hu := by exact h.unique t u (hholds t ▸ ht) (hholds u ▸ hu)
  held := by
    simp only [hstate, hholds]
    exact h.held
  loaded := hloaded
  counted := hcounted

theorem holds_increment {t : Nat} {value : Int} (h : pc t = .increment value) : holds (pc t) := by
  rw [h]
  rfl

theorem Effect.exclusive (h : Exclusive pc d) (heffect : Effect d (pc th) d' p') :
    Exclusive (update pc th p') d' := by
  generalize hp : pc th = p at heffect
  cases heffect with
  | outside hout hout' hstate hcounter hincrements =>
    have hsame : holds p' = holds (pc th) := by rw [hp, hout, hout']
    refine h.of_same_holders (holds_update_same hsame) hstate (fun t value ht => ?_) ?_
    · by_cases heq : t = th
      · have hholds := holds_increment ht
        rw [holds_update, if_pos heq, hout'] at hholds
        cases hholds
      · rw [update_of_ne heq] at ht
        rw [hcounter]
        exact h.loaded t value ht
    · rw [hcounter, hincrements]
      exact h.counted
  | acquire hout hfree =>
    have hnone := h.not_holds hfree
    have honly : ∀ u, holds (update pc th .critical u) → u = th := by
      intro u hu
      by_contra hne
      rw [holds_update, if_neg hne, hnone] at hu
      cases hu
    refine ⟨.inr rfl, ?_, ⟨fun _ => ⟨th, ?_⟩, fun _ => rfl⟩, ?_, h.counted⟩
    · intro t u ht hu
      rw [honly t ht, honly u hu]
    · rw [update_self]
      rfl
    · intro t value ht
      obtain rfl := honly t (holds_increment ht)
      rw [update_self] at ht
      cases ht
  | load =>
    have hsame : holds (.increment d.sharedCounter) = holds (pc th) := by
      rw [hp]
      rfl
    refine h.of_same_holders (holds_update_same hsame) rfl (fun t value ht => ?_) h.counted
    by_cases heq : t = th
    · rw [heq, update_self] at ht
      cases ht
      rfl
    · rw [update_of_ne heq] at ht
      exact h.loaded t value ht
  | store value =>
    -- the stored value is one more than the counter, because nobody else stored since the load
    have hvalue := h.loaded th value hp
    have hsame : holds .release = holds (pc th) := by
      rw [hp]
      rfl
    refine h.of_same_holders (holds_update_same hsame) rfl (fun t value' ht => ?_) ?_
    · by_cases heq : t = th
      · rw [heq, update_self] at ht
        cases ht
      · rw [update_of_ne heq] at ht
        have hother := h.others (holds_increment hp) heq
        rw [holds_increment ht] at hother
        cases hother
    · have hcounted := h.counted
      change value + 1 = ((d.increments + 1 : Nat) : Int)
      omega
  | release =>
    have hth : holds (pc th) := by
      rw [hp]
      rfl
    have hnone : ∀ u, holds (update pc th .futexWake u) = false := by
      intro u
      rw [holds_update]
      split_ifs with hu
      · rfl
      · exact h.others hth hu
    refine ⟨.inl rfl, ?_, ⟨fun hstate => ?_, ?_⟩, ?_, h.counted⟩
    · intro t u ht
      rw [hnone t] at ht
      cases ht
    · cases hstate
    · rintro ⟨t, ht⟩
      rw [hnone t] at ht
      cases ht
    · intro t value ht
      have hheld := holds_increment ht
      rw [hnone t] at hheld
      cases hheld

/-! ## Runs -/

variable {k : Kernel}

theorem step_effect (h : step code c (th, k) = some c') :
    ∃ d p, Effect c.data (c.pc th) d p ∧ c' = ⟨c.owner, update c.pc th p, d⟩ := by
  rcases step_cases h with ⟨m, -⟩ | ⟨m, -⟩ | ⟨f, d, p, hcode, hf, rfl⟩
  · cases m
  · cases m
  · exact ⟨d, p, effect_of_act hcode hf, rfl⟩

theorem run_exclusive {schedule : List (Nat × Kernel)} (h : run code init schedule = some c) :
    Exclusive c.pc c.data := by
  have hmeets : Meets code (fun _ _ _ _ => True) init schedule :=
    meets_of_forall (fun _ _ _ _ => trivial) _ _
  refine run_induction (J := fun c => Exclusive c.pc c.data) ?_ Exclusive.start hmeets h
  intro c c' th k hc _ hs
  rcases step_effect hs with ⟨d, p, heffect, rfl⟩
  exact heffect.exclusive hc

/-- At most one thread is between its compare-exchange and its release store, the word is 1 exactly
while there is one, and every increment counts. -/
theorem latch_excludes (schedule : List (Nat × Kernel)) (c : Config Empty Shared Pc)
    (h : run code init schedule = some c) : (∀ t u, holds (c.pc t) → holds (c.pc u) → t = u) ∧
      (c.data.state = 0 ∨ c.data.state = 1) ∧ (c.data.state = 1 ↔ ∃ t, holds (c.pc t)) ∧
      c.data.sharedCounter = c.data.increments := by
  have hexclusive := run_exclusive h
  exact ⟨hexclusive.unique, hexclusive.word, hexclusive.held, hexclusive.counted⟩

/-- Thread 1 fails once and takes the latch in the spin loop after thread 0 has released it. -/
def handOver : List (Nat × Kernel) :=
  [0, 0, 1, 1, 1, 0, 0, 0, 1, 1, 1, 1, 1].map fun t => (t, ⟨.woken, 0⟩)

theorem latch_excludes_hand_over : ∃ c, run code init handOver = some c ∧ c.data.increments = 2 ∧
    holds (c.pc 1) ∧ (∀ t u, holds (c.pc t) → holds (c.pc u) → t = u) ∧
      (c.data.state = 0 ∨ c.data.state = 1) ∧ (c.data.state = 1 ↔ ∃ t, holds (c.pc t)) ∧
      c.data.sharedCounter = c.data.increments := by
  obtain ⟨c, hrun, hcount, hholds⟩ :
      ∃ c, run code init handOver = some c ∧ c.data.increments = 2 ∧ holds (c.pc 1) :=
    exists_of_run _ (by decide +kernel)
  exact ⟨c, hrun, hcount, hholds, latch_excludes handOver c hrun⟩

/-! ## A thread that runs alone while the latch is free -/

/-- Thread `th` runs alone; the kernel answers as it likes. -/
def alone (th : Nat) (answers : List Kernel) : List (Nat × Kernel) := answers.map fun k => (th, k)

/-- A compare-exchange comes before the next `futex_wait`. -/
def triesNext : Pc → Bool
  | .tryFast | .spinLoad _ | .spinTry _ | .wokenTry => true
  | .pause spin => spin + 1 < SPINS
  | _ => false

/-- The number of steps to the end of `latch_acquire` if the latch is free. -/
def stepsToAcquire : Pc → Nat
  | .pause _ => 3
  | .spinLoad _ => 2
  | _ => 1

section Alone

def moved (c : Config Empty Shared Pc) (th : Nat) (p : Pc) : Config Empty Shared Pc :=
  ⟨c.owner, update c.pc th p, c.data⟩

def acquired (c : Config Empty Shared Pc) (th : Nat) : Config Empty Shared Pc :=
  ⟨c.owner, update c.pc th .critical, { c.data with state := 1 }⟩

theorem step_compareExchange (hfree : c.data.state = 0) (k : Kernel)
    (hpc : c.pc th = .tryFast ∨ (∃ spin, c.pc th = .spinTry spin) ∨ c.pc th = .wokenTry) :
    step code c (th, k) = some (acquired c th) := by
  rcases hpc with hpc | ⟨spin, hpc⟩ | hpc <;>
    simp only [step, hpc, code, compareExchange, if_pos hfree, acquired]

variable {spin : Nat} {answers : List Kernel}

theorem step_spinLoad (hfree : c.data.state = 0) (hpc : c.pc th = .spinLoad spin)
    (k : Kernel) : step code c (th, k) = some (moved c th (.spinTry spin)) := by
  simp only [step, hpc, code, if_pos hfree, moved]

theorem step_pause (hpc : c.pc th = .pause spin) (k : Kernel) : step code c (th, k) =
      some (moved c th (if spin + 1 < SPINS then .spinLoad (spin + 1) else .futexWait)) := by
  simp only [step, hpc, code, moved]

variable (hfree : c.data.state = 0)

include hfree

theorem step_futexWait (hpc : c.pc th = .futexWait) (k : Kernel) :
    step code c (th, k) = some (moved c th .futexWait) := by
  have hne : ¬c.data.state = 1 := by omega
  simp only [step, hpc, code, if_neg hne, moved]

/-! ## With a compare-exchange ahead -/

theorem run_compareExchange (hlen : answers.length = 1)
    (hpc : c.pc th = .tryFast ∨ (∃ spin, c.pc th = .spinTry spin) ∨ c.pc th = .wokenTry) :
    ∃ c', run code c (alone th answers) = some c' ∧ c'.pc th = .critical := by
  rcases List.length_eq_one_iff.1 hlen with ⟨k, rfl⟩
  refine ⟨acquired c th, ?_, update_self _ _ _⟩
  exact run_cons.2 ⟨_, step_compareExchange hfree k hpc, rfl⟩

theorem run_spinLoad (hpc : c.pc th = .spinLoad spin) (hlen : answers.length = 2) :
    ∃ c', run code c (alone th answers) = some c' ∧ c'.pc th = .critical := by
  cases answers with
  | nil => cases hlen
  | cons k answers =>
    have hnext : (moved c th (.spinTry spin)).pc th = .spinTry spin := update_self _ _ _
    rcases run_compareExchange (c := moved c th (.spinTry spin)) hfree (Nat.succ.inj hlen)
      (.inr (.inl ⟨spin, hnext⟩)) with ⟨c', hrun, hcritical⟩
    exact ⟨c', run_cons.2 ⟨_, step_spinLoad hfree hpc k, hrun⟩, hcritical⟩

theorem acquires_of_triesNext (htries : triesNext (c.pc th))
    (hlen : answers.length = stepsToAcquire (c.pc th)) :
    ∃ c', run code c (alone th answers) = some c' ∧ c'.pc th = .critical := by
  cases hpc : c.pc th with
  | tryFast | spinTry spin | wokenTry =>
    rw [hpc] at hlen
    exact run_compareExchange hfree hlen (by simp [hpc])
  | spinLoad spin =>
    rw [hpc] at hlen
    exact run_spinLoad hfree hpc hlen
  | pause spin =>
    rw [hpc] at hlen htries
    have hlt : spin + 1 < SPINS := of_decide_eq_true htries
    cases answers with
    | nil => cases hlen
    | cons k answers =>
      have hstep := step_pause hpc k
      rw [if_pos hlt] at hstep
      rcases run_spinLoad (c := moved c th (.spinLoad (spin + 1))) hfree
        (update_self _ _ _) (Nat.succ.inj hlen) with ⟨c', hrun, hcritical⟩
      exact ⟨c', run_cons.2 ⟨_, hstep, hrun⟩, hcritical⟩
  | _ =>
    rw [hpc] at htries
    cases htries

/-! ## Without one -/

theorem stuck_at_futexWait (hpc : c.pc th = .futexWait) (answers : List Kernel) :
    ∃ c', run code c (alone th answers) = some c' ∧ c'.pc th = .futexWait := by
  induction answers generalizing c with
  | nil => exact ⟨c, rfl, hpc⟩
  | cons k answers ih =>
    rcases ih (c := moved c th .futexWait) hfree (update_self _ _ _) with ⟨c', hrun, hwait⟩
    exact ⟨c', run_cons.2 ⟨_, step_futexWait hfree hpc k, hrun⟩, hwait⟩

theorem stuck_of_not_triesNext (hin : acquiring (c.pc th))
    (htries : triesNext (c.pc th) = false) (answers : List Kernel) :
    ∃ c', run code c (alone th answers) = some c' ∧ acquiring (c'.pc th) := by
  have hwait : ∀ {c : Config Empty Shared Pc}, c.data.state = 0 → c.pc th = .futexWait →
      ∀ answers, ∃ c', run code c (alone th answers) = some c' ∧ acquiring (c'.pc th) := by
    intro c hfree hpc answers
    rcases stuck_at_futexWait hfree hpc answers with ⟨c', hrun, hpc'⟩
    exact ⟨c', hrun, by rw [hpc']; rfl⟩
  cases hpc : c.pc th with
  | futexWait => exact hwait hfree hpc answers
  | pause spin =>
    rw [hpc] at htries
    have hlast : ¬spin + 1 < SPINS := of_decide_eq_false htries
    cases answers with
    | nil => exact ⟨c, rfl, hin⟩
    | cons k answers =>
      have hstep := step_pause hpc k
      rw [if_neg hlast] at hstep
      rcases hwait (c := moved c th .futexWait) hfree (update_self _ _ _) answers
        with ⟨c', hrun, hin'⟩
      exact ⟨c', run_cons.2 ⟨_, hstep, hrun⟩, hin'⟩
  | tryFast | spinLoad spin | spinTry spin | wokenTry =>
    rw [hpc] at htries
    cases htries
  | _ =>
    rw [hpc] at hin
    cases hin

end Alone

/-! ## Exactly when -/

/-- In every configuration, reachable or not, in which the latch is free, a thread inside
`latch_acquire` that runs alone returns from it if and only if a compare-exchange comes before its
next `futex_wait`. -/
theorem acquires_alone_iff (c : Config Empty Shared Pc) (th : Nat) (hfree : c.data.state = 0)
    (hin : acquiring (c.pc th)) : (∃ n, ∀ answers : List Kernel, answers.length = n →
        ∃ c', run code c (alone th answers) = some c' ∧ c'.pc th = .critical) ↔
          triesNext (c.pc th) := by
  constructor
  · rintro ⟨n, hreturns⟩
    rw [← Bool.not_eq_false]
    intro hno
    let answers := List.replicate n (Kernel.mk .woken 0)
    rcases hreturns answers List.length_replicate with ⟨c', hrun, hcritical⟩
    rcases stuck_of_not_triesNext hfree hin hno answers with ⟨c'', hrun', hin'⟩
    obtain rfl : c' = c'' := Option.some.inj (hrun.symm.trans hrun')
    rw [hcritical] at hin'
    cases hin'
  · intro htries
    exact ⟨stepsToAcquire (c.pc th), fun _ hlen => acquires_of_triesNext hfree htries hlen⟩

def releasedEarly : List (Nat × Kernel) :=
  [0, 0, 1, 1, 0, 0, 0].map fun t => (t, ⟨.woken, 0⟩)

theorem spinning_thread_acquires : ∃ c, run code init releasedEarly = some c ∧ c.data.state = 0 ∧
    acquiring (c.pc 1) ∧ ∃ n, ∀ answers : List Kernel, answers.length = n →
        ∃ c', run code c (alone 1 answers) = some c' ∧ c'.pc 1 = .critical := by
  obtain ⟨c, hrun, hfree, hpc⟩ :
      ∃ c, run code init releasedEarly = some c ∧ c.data.state = 0 ∧ c.pc 1 = .spinLoad 0 :=
    exists_of_run _ (by decide +kernel)
  have hin : acquiring (c.pc 1) := by
    rw [hpc]
    rfl
  refine ⟨c, hrun, hfree, hin, (acquires_alone_iff c 1 hfree hin).2 ?_⟩
  rw [hpc]
  rfl

def releasedLate : List (Nat × Kernel) :=
  ([0, 0, 1, 1] ++ List.replicate (2 * SPINS) 1 ++ [0, 0, 0]).map fun t => (t, ⟨.woken, 0⟩)

/-- The latch is free and thread 1 is awake, but it calls `futex_wait` again and again. -/
theorem free_latch_is_not_acquired : ∃ c, run code init releasedLate = some c ∧ c.data.state = 0 ∧
    acquiring (c.pc 1) ∧ ∀ answers : List Kernel, ∃ c', run code c (alone 1 answers) = some c' ∧
        c'.pc 1 = .futexWait := by
  obtain ⟨c, hrun, hfree, hpc⟩ :
      ∃ c, run code init releasedLate = some c ∧ c.data.state = 0 ∧ c.pc 1 = .futexWait :=
    exists_of_run _ (by decide +kernel)
  refine ⟨c, hrun, hfree, ?_, stuck_at_futexWait hfree hpc⟩
  rw [hpc]
  rfl

end SystemsLab.FutexLatch
